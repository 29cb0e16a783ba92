import Wadjet.Coordinator.ProbeSplit.Split

namespace Wadjet.Coordinator.ProbeSplit

open Wadjet.Data List

section Measures

variable {columns : List String}

def AggExpr.Mergeable (agg : AggExpr) : Prop := agg.distinct → agg.func = .min ∨ agg.func = .max

theorem aggValue_of_mergeable {agg : AggExpr} (h : agg.Mergeable) (rows : List Row) :
    aggValue columns agg rows = agg.func.value (aggInput columns agg rows) := by
  unfold aggValue
  split
  · rename_i hdistinct
    rcases h hdistinct with hfunc | hfunc
    · rw [hfunc]
      exact min?_congr fun v => mem_distinctBy _ v
    · rw [hfunc]
      exact max?_congr fun v => mem_distinctBy _ v
  · rfl

theorem aggInput_flatten (agg : AggExpr) (pieces : List (List Row)) :
    aggInput columns agg pieces.flatten = (pieces.map (aggInput columns agg)).flatten := by
  unfold aggInput
  split
  · rw [map_flatten]
  · rw [filterMap_flatten]

variable {aggExprs : List AggExpr}

theorem combineValues_aggValues (h : ∀ agg ∈ aggExprs, agg.Mergeable)
    {pieces : List (List Row)} (hne : pieces ≠ []) :
    combineValues (aggExprs.map AggExpr.func) (pieces.map (aggValues columns aggExprs)) =
      aggValues columns aggExprs pieces.flatten := by
  have hvalues : aggValues columns aggExprs =
      fun rows => aggExprs.map fun agg => agg.func.value (aggInput columns agg rows) := by
    funext rows
    exact map_congr_left fun agg hagg => aggValue_of_mergeable (h agg hagg) rows
  rw [hvalues]
  exact combineValues_pieces aggInput_flatten hne

theorem combines_aggValues (h : ∀ agg ∈ aggExprs, agg.Mergeable) :
    Combines (aggValues columns aggExprs) (combineValues (aggExprs.map AggExpr.func)) where
  perm := fun _ _ => aggValues_perm aggExprs
  pieces := fun _ hne _ => combineValues_aggValues h hne

end Measures

section Names

variable {columns : List String}

theorem idxOf?_of_nodup {α : Type} [DecidableEq α] {xs : List α} (h : xs.Nodup) {j : Nat} {x : α}
    (hj : xs[j]? = some x) : xs.idxOf? x = some j := by
  obtain ⟨hlt, hget⟩ := List.getElem?_eq_some_iff.mp hj
  refine idxOf?_eq_some_iff.mpr ⟨hlt, hget, fun i hi heq => ?_⟩
  have := (h.getElem_inj_iff).mp (heq.trans hget.symm)
  omega

theorem colIdx_of_nodup (h : columns.Nodup) {j : Nat} {name : String} (hj : columns[j]? = some name) :
    colIdx columns name = some j := by
  unfold colIdx
  have hmem : (name, j) ∈ columns.zipIdx.reverse :=
    mem_reverse.mpr (mem_zipIdx_iff_getElem?.mpr hj)
  cases hfind : columns.zipIdx.reverse.find? fun entry => entry.1 = name with
  | none => simpa using find?_eq_none.mp hfind _ hmem
  | some entry =>
    have hentry := mem_zipIdx_iff_getElem?.mp (mem_reverse.mp (mem_of_find?_eq_some hfind))
    have hname : entry.1 = name := by simpa using find?_some hfind
    rw [hname, ← hj] at hentry
    have hlt := (List.getElem?_eq_some_iff.mp hj).1
    exact congrArg some ((getElem?_inj hlt h).mp hentry.symm).symm

theorem rename_src {projections : List Projection} (h : (projections.map Projection.src).Nodup) {p : Projection}
    (hp : p ∈ projections) : rename projections p.src = p.dst := by
  unfold rename
  split
  · rename_i q hfind
    have hq := find?_some hfind
    have hmem := mem_reverse.mp (mem_of_find?_eq_some hfind)
    have hsrc : q.src = p.src := (of_decide_eq_true hq).1
    rw [inj_on_of_nodup_map h hmem hp hsrc]
  · rename_i hfind
    have hnone := find?_eq_none.mp hfind p (mem_reverse.mpr hp)
    by_contra hne
    exact hnone (by simpa using hne)

end Names

def picks (idxs : List Nat) (row : Row) : Row := idxs.map fun i => row.getD i none

namespace MergeInfo

def names (mi : MergeInfo) : List String := mi.groupBy ++ mi.aggExprs.map AggExpr.outputCol

theorem names_applyProjectionRenames (mi : MergeInfo) (projections : List Projection) :
    (mi.applyProjectionRenames projections).names = mi.names.map (rename projections) := by
  simp [names, applyProjectionRenames]

end MergeInfo

-- A plan that shows the columns of an aggregate under the names of the merge,
-- each at one of the given places.
structure Shows (db : Database) (core : Plan) (groupBy : List String) (aggExprs : List AggExpr) (child : Plan)
    (mi : MergeInfo) (idxs : List Nat) : Prop where
  hasAggregate : mi.hasAggregate
  length : mi.groupBy.length = groupBy.length
  funcs : mi.aggExprs.map AggExpr.func = aggExprs.map AggExpr.func
  nodup : mi.names.Nodup
  places : idxs.Perm (range mi.names.length)
  columns : core.columns db = idxs.map fun i => mi.names.getD i ""
  answer_iff : ∀ out, core.Answer db out ↔ ∃ rows, child.Answer db rows ∧
    out.Perm ((aggregateRows (child.columns db) groupBy aggExprs rows).map (picks idxs))

variable {db : Database} {core child : Plan} {groupBy : List String} {aggExprs : List AggExpr}
  {mi : MergeInfo} {idxs : List Nat} {columns : List String} {rows : List Row}

theorem length_fst_of_mem_rollup {measure : List Row → List Cell}
    {entry : List Cell × List Cell} (h : entry ∈ rollup (groupKey columns groupBy) measure rows) :
    entry.1.length = groupBy.length := by
  have hkey := (mem_map_fst_rollup rows entry.1).mp (mem_map_of_mem h)
  obtain ⟨row, -, hrow⟩ := mem_map.mp hkey
  rw [← hrow]
  exact length_map _

variable {row : Row}

theorem length_of_mem_aggregateRows
    (h : row ∈ aggregateRows columns groupBy aggExprs rows) : row.length = groupBy.length + aggExprs.length := by
  unfold aggregateRows at h
  split at h
  · simp_all [aggValues]
  · obtain ⟨entry, hentry, rfl⟩ := mem_map.mp h
    rw [length_append, length_fst_of_mem_rollup hentry]
    obtain ⟨group, -, rfl⟩ := mem_map.mp hentry
    simp [aggValues]

theorem map_getD_range {α : Type} (xs : List α) (d : α) : (range xs.length).map (fun i => xs.getD i d) = xs := by
  apply ext_getElem
  · simp
  · intro i h _
    simp at h
    simp [h]

theorem picks_range {n : Nat} (h : row.length = n) : picks (range n) row = row := by
  subst h
  exact map_getD_range row none

theorem shows_aggregate (orderBy : List OrderExpr) (bound : Option Nat × Nat)
    (hnodup : (groupBy ++ aggExprs.map AggExpr.outputCol).Nodup) :
    Shows db (.aggregate groupBy aggExprs child) groupBy aggExprs child
      ((Plan.aggregate groupBy aggExprs child).shape orderBy bound)
      (range (groupBy ++ aggExprs.map AggExpr.outputCol).length) where
  hasAggregate := rfl
  length := rfl
  funcs := rfl
  nodup := hnodup
  places := List.Perm.refl _
  columns := (map_getD_range _ "").symm
  answer_iff := by
    intro out
    have hrows : ∀ rows, (aggregateRows (child.columns db) groupBy aggExprs rows).map
        (picks (range (groupBy ++ aggExprs.map AggExpr.outputCol).length)) =
          aggregateRows (child.columns db) groupBy aggExprs rows := by
      intro rows
      refine (map_congr_left fun row hrow => ?_).trans (map_id _)
      exact picks_range (by simp [length_of_mem_aggregateRows hrow])
    simp only [Plan.Answer, hrows]

namespace Shows

theorem columns_perm (h : Shows db core groupBy aggExprs child mi idxs) : (core.columns db).Perm mi.names := by
  rw [h.columns]
  exact (h.places.map _).trans (List.Perm.of_eq (map_getD_range _ ""))

variable {m : Nat} {name : String}

section

variable (h : Shows db core groupBy aggExprs child mi idxs)

include h

theorem exists_place (hm : mi.names[m]? = some name) : ∃ j : Nat, idxs[j]? = some m ∧
    (core.columns db)[j]? = some name := by
  have hlt := (List.getElem?_eq_some_iff.mp hm).1
  obtain ⟨j, hj⟩ := getElem?_of_mem (h.places.mem_iff.mpr (mem_range.mpr hlt))
  refine ⟨j, hj, ?_⟩
  rw [h.columns, getElem?_map, hj]
  simp [hm]

theorem cell_picks (hm : mi.names[m]? = some name) (row : Row) :
    cell (core.columns db) name (picks idxs row) = row.getD m none := by
  obtain ⟨j, hj, hcolumn⟩ := h.exists_place hm
  have hnodup := h.columns_perm.nodup_iff.mpr h.nodup
  rw [cell, idxOf?_of_nodup hnodup hcolumn]
  simp [picks, hj]

theorem permClosed : core.PermClosed db := by
  intro out out' hout hperm
  obtain ⟨rows, hrows, hpicks⟩ := (h.answer_iff out).mp hout
  exact (h.answer_iff out').mpr ⟨rows, hrows, hperm.symm.trans hpicks⟩

end

variable {projections : List Projection}

theorem getElem?_idxOf (h : Shows db core groupBy aggExprs child mi idxs)
    (hsrc : (projections.map Projection.src).Perm (core.columns db)) {p : Projection} (hp : p ∈ projections) :
    mi.names[mi.names.idxOf p.src]? = some p.src := by
  have hmem : p.src ∈ mi.names := (hsrc.trans h.columns_perm).mem_iff.mp (mem_map_of_mem hp)
  exact List.getElem?_idxOf hmem

theorem project (h : Shows db core groupBy aggExprs child mi idxs)
    (hcolumn : ∀ p ∈ projections, ∃ name, p.source = .column name)
    (hsrc : (projections.map Projection.src).Perm (core.columns db))
    (hdst : (projections.map Projection.dst).Nodup) :
    Shows db (.project projections core) groupBy aggExprs child (mi.applyProjectionRenames projections)
      (projections.map fun p => mi.names.idxOf p.src) := by
  have hnames := hsrc.trans h.columns_perm
  have hsrcNodup := hnames.nodup_iff.mpr h.nodup
  have hrename : (projections.map Projection.src).map (rename projections) = projections.map Projection.dst := by
    rw [map_map]
    exact map_congr_left fun p hp => rename_src hsrcNodup hp
  have hpick : ∀ row, projectRow (core.columns db) projections (picks idxs row) =
      picks (projections.map fun p => mi.names.idxOf p.src) row := by
    intro row
    have hpicked : picks (projections.map fun p => mi.names.idxOf p.src) row =
        projections.map fun p => row.getD (mi.names.idxOf p.src) none := by simp [picks]
    rw [hpicked]
    refine map_congr_left fun p hp => ?_
    obtain ⟨name, hname⟩ := hcolumn p hp
    have hsame : p.src = name := by rw [Projection.src, hname]
    rw [hname, ← hsame]
    exact h.cell_picks (h.getElem?_idxOf hsrc hp) row
  refine ⟨h.hasAggregate, ?_, ?_, ?_, ?_, ?_, ?_⟩
  · rw [← h.length]
    exact length_map _
  · rw [← h.funcs]
    simp [MergeInfo.applyProjectionRenames]
  · rw [MergeInfo.names_applyProjectionRenames]
    exact ((hnames.map _).nodup_iff.mp (hrename ▸ hdst))
  · rw [MergeInfo.names_applyProjectionRenames, length_map]
    have hidx : mi.names.map (mi.names.idxOf ·) = range mi.names.length := by
      apply ext_getElem
      · simp
      · simp [h.nodup.idxOf_getElem]
    have hsplit : (projections.map fun p => mi.names.idxOf p.src) =
        (projections.map Projection.src).map (mi.names.idxOf ·) := by simp
    rw [← hidx, hsplit]
    exact hnames.map _
  · rw [MergeInfo.names_applyProjectionRenames, map_map]
    change projections.map Projection.dst = _
    rw [← hrename, map_map]
    refine map_congr_left fun p hp => ?_
    simp [h.getElem?_idxOf hsrc hp]
  · intro out
    constructor
    · rintro ⟨shown, hshown, rfl⟩
      obtain ⟨rows, hrows, hperm⟩ := (h.answer_iff shown).mp hshown
      refine ⟨rows, hrows, (hperm.map _).trans (List.Perm.of_eq ?_)⟩
      rw [map_map]
      exact map_congr_left fun row _ => hpick row
    · rintro ⟨rows, hrows, hperm⟩
      have hshown := (h.answer_iff _).mpr ⟨rows, hrows, List.Perm.refl _⟩
      refine Plan.permClosed_project projections h.permClosed _ out ⟨_, hshown, rfl⟩ ?_
      refine List.Perm.trans (List.Perm.of_eq ?_) hperm.symm
      rw [map_map]
      exact map_congr_left fun row _ => hpick row

end Shows

end Wadjet.Coordinator.ProbeSplit
