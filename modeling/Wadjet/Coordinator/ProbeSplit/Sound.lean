import Wadjet.Coordinator.ProbeSplit.Combine

namespace Wadjet.Coordinator.ProbeSplit

open Wadjet.Data List

namespace Plan

-- Projections that only rename and reorder what they read.
def Renames (projections : List Projection) (child : Plan) : Prop :=
  (∀ p ∈ projections, ∃ name, p.source = .column name) ∧
    (∀ db, (projections.map Projection.src).Perm (child.columns db)) ∧
      (projections.map Projection.dst).Nodup

-- Renamings over an aggregate whose partial values add up.
def Renamed (scanAlias : String) : Plan → Prop
  | project projections child => child.Renamed scanAlias ∧ Renames projections child
  | aggregate groupBy aggExprs child => child.Linear scanAlias ∧ aggExprs ≠ [] ∧
      (∀ agg ∈ aggExprs, agg.Mergeable) ∧ (groupBy ++ aggExprs.map AggExpr.outputCol).Nodup
  | _ => False

-- The rows come from a list of projections, and so have its width.
def Listed : Plan → Prop
  | project _ _ => True
  | filter _ child => child.Listed
  | sort _ child => child.Listed
  | distinct child => child.Listed
  | _ => False

-- Renamings over a DISTINCT: they take no two of its rows to one.
def Deduped (scanAlias : String) : Plan → Prop
  | project projections child => child.Deduped scanAlias ∧ child.Listed ∧
      (∀ db, (child.columns db).Nodup) ∧ Renames projections child
  | distinct child => child.Linear scanAlias
  | _ => False

-- The plans that a cut of the probe does not change. Tasks that keep their
-- limit must have no rows to skip.
def Splittable (scanAlias : String) (plan : Plan) : Prop :=
  plan.stripTopSortLimit.Renamed scanAlias ∨
    (plan.topLimit.2 = 0 ∨ plan.topLimit.1 = some 0) ∧
      (plan.stripTopSortLimit.Linear scanAlias ∧ plan.stripTopSortLimit.Unordered ∨
        plan.stripTopSortLimit.Deduped scanAlias)

def Resolves (plan : Plan) (db : Database) : Prop :=
  ∀ key ∈ plan.belowLimit.topSort, key.column ∈ plan.columns db

end Plan

-- Over every database and every cut of the probe, whatever each task answers
-- over its slice is merged into an answer of the plan over the whole.
def AnswersPlan (plan : Plan) (scanAlias : String) (mi : MergeInfo) : Prop :=
  ∀ db slices parts, plan.Resolves db → slices ≠ [] → slices.flatten.Perm (db scanAlias).rows →
    List.Forall₂ (fun slice part => (taskPlan plan).Answer (restrict db scanAlias slice) part) slices parts →
      (∃ out, Merges ((taskPlan plan).columns db) mi parts out) ∧
        ∀ out, Merges ((taskPlan plan).columns db) mi parts out → plan.Answer db out

section Top

variable {db : Database}

theorem columns_strip (plan : Plan) : plan.stripTopSortLimit.columns db = plan.columns db := by
  have hsort : ∀ p : Plan, p.belowSort.columns db = p.columns db := by
    intro p
    cases p <;> rfl
  have hlimit : plan.belowLimit.columns db = plan.columns db := by cases plan <;> rfl
  rw [Plan.stripTopSortLimit, hsort, hlimit]

theorem columns_taskPlan (plan : Plan) : (taskPlan plan).columns db = plan.columns db := by
  unfold taskPlan
  split
  · exact columns_strip plan
  · rfl

theorem shape_bound (orderBy : List OrderExpr) (bound : Option Nat × Nat) (plan : Plan) :
    (plan.shape orderBy bound).orderBy = orderBy ∧ (plan.shape orderBy bound).limit = bound.1 ∧
      (plan.shape orderBy bound).offset = bound.2 := by
  induction plan with
  | project projections child ih => exact ih
  | scan | filter | aggregate | sort | limit | join | distinct => exact ⟨rfl, rfl, rfl⟩

variable {plan : Plan}

theorem answer_belowLimit_iff (h : plan.belowSort.PermClosed db) (out : List Row) :
    plan.Answer db out ↔ ∃ rows, plan.belowSort.Answer db rows ∧
      Arranges (rowLe (plan.columns db) plan.topSort) rows out := by
  cases plan with
  | sort orderBy child => exact Iff.rfl
  | scan | filter | project | aggregate | limit | join | distinct =>
    constructor
    · intro hout
      exact ⟨out, hout, arranges_of_ties (fun _ _ => rfl) (List.Perm.refl _)⟩
    · rintro ⟨rows, hrows, harranges⟩
      exact h rows out hrows harranges.perm.symm

theorem limitRows_none (rows : List Row) : limitRows none 0 rows = rows := rfl

theorem answer_iff (h : plan.stripTopSortLimit.PermClosed db) (out : List Row) :
    plan.Answer db out ↔ ∃ rows sorted, plan.stripTopSortLimit.Answer db rows ∧
      Arranges (rowLe (plan.columns db) plan.belowLimit.topSort) rows sorted ∧
        out = limitRows plan.topLimit.1 plan.topLimit.2 sorted := by
  have hlimit : plan.Answer db out ↔ ∃ sorted, plan.belowLimit.Answer db sorted ∧
      out = limitRows plan.topLimit.1 plan.topLimit.2 sorted := by
    cases plan with
    | limit => exact Iff.rfl
    | scan | filter | project | aggregate | sort | join | distinct =>
      simp only [Plan.belowLimit, Plan.topLimit, limitRows_none, exists_eq_right']
  have hcolumns : plan.belowLimit.columns db = plan.columns db := by cases plan <;> rfl
  rw [hlimit]
  simp only [answer_belowLimit_iff h, hcolumns]
  constructor
  · rintro ⟨sorted, ⟨rows, hrows, harranges⟩, hout⟩
    exact ⟨rows, sorted, hrows, harranges, hout⟩
  · rintro ⟨rows, sorted, hrows, harranges, hout⟩
    exact ⟨sorted, ⟨rows, hrows, harranges⟩, hout⟩

end Top

section Merge

variable {columns : List String} {mi : MergeInfo} {parts : List (List Row)}

theorem keepRows_drop (mi : MergeInfo) (rows : List Row) :
    (keepRows mi rows).drop mi.offset = limitRows mi.limit mi.offset rows := by
  cases hlimit : mi.limit with
  | none => simp only [keepRows, limitRows, hlimit]
  | some n => simp only [keepRows, limitRows, hlimit, take_drop, add_comm]

theorem Merges.exists_sorted {out : List Row} (h : Merges columns mi parts out) :
    ∃ combined sorted, combinePartials columns mi parts.flatten = some combined ∧
      Arranges (rowLe columns mi.orderBy) combined sorted ∧ out = limitRows mi.limit mi.offset sorted := by
  obtain ⟨combined, hcombined, rows, hrows, sorted, hsorted, rfl⟩ := h
  have hperm : rows.Perm combined := by
    split at hrows
    · exact hrows
    · exact List.Perm.of_eq hrows
  have harranges : Arranges (rowLe columns mi.orderBy) rows sorted := by
    split at hsorted
    · rename_i hempty
      rw [isEmpty_iff.mp hempty, hsorted]
      exact arranges_of_ties (fun _ _ => rfl) (List.Perm.refl _)
    · exact hsorted.2
  exact ⟨combined, sorted, hcombined, harranges.congr hperm, keepRows_drop mi sorted⟩

theorem exists_merges (hresolves : ∀ key ∈ mi.orderBy, key.column ∈ columns) {combined : List Row}
    (h : combinePartials columns mi parts.flatten = some combined) : ∃ out, Merges columns mi parts out := by
  have hself : if mi.hasDistinct then combined.Perm combined else combined = combined := by
    split
    · exact List.Perm.refl _
    · rfl
  by_cases hempty : mi.orderBy.isEmpty
  · exact ⟨_, combined, h, combined, hself, combined, by rw [if_pos hempty], rfl⟩
  · refine ⟨_, combined, h, combined, hself, combined.mergeSort (rowLe columns mi.orderBy), ?_, rfl⟩
    rw [if_neg hempty]
    exact ⟨Or.inr hresolves, (isOrder_rowLe mi.orderBy).arranges_mergeSort combined⟩

end Merge

variable {db : Database} {plan : Plan} {scanAlias : String} {slices parts : List (List Row)}
  {combined : List Row}

theorem answersPlan_of_combined (hresolves : plan.Resolves db) (hclosed : plan.stripTopSortLimit.PermClosed db)
    (hcombined : combinePartials (plan.columns db) (extractMergeInfo plan) parts.flatten = some combined)
    (hanswer : plan.stripTopSortLimit.Answer db combined) :
    (∃ out, Merges (plan.columns db) (extractMergeInfo plan) parts out) ∧
      ∀ out, Merges (plan.columns db) (extractMergeInfo plan) parts out → plan.Answer db out := by
  obtain ⟨horder, hlimit, hoffset⟩ := shape_bound plan.belowLimit.topSort plan.topLimit plan.stripTopSortLimit
  refine ⟨exists_merges (fun key hkey => hresolves key (horder ▸ hkey)) hcombined, fun out hout => ?_⟩
  obtain ⟨combined', sorted, hcombined', harranges, hout⟩ := hout.exists_sorted
  obtain rfl : combined = combined' := Option.some.inj (hcombined.symm.trans hcombined')
  refine (answer_iff hclosed out).mpr ⟨combined, sorted, hanswer, ?_, ?_⟩
  · exact horder ▸ harranges
  · rw [hout]
    exact congrArg₂ (fun l o => limitRows l o sorted) hlimit hoffset

variable {core : Plan}

theorem Plan.Renamed.shows (h : core.Renamed scanAlias) (orderBy : List OrderExpr)
    (bound : Option Nat × Nat) : ∃ groupBy aggExprs child idxs, child.Linear scanAlias ∧ aggExprs ≠ [] ∧
      (∀ agg ∈ aggExprs, agg.Mergeable) ∧
        ∀ db, Shows db core groupBy aggExprs child (core.shape orderBy bound) idxs := by
  induction core with
  | project projections child ih =>
    obtain ⟨hchild, hcolumn, hsrc, hdst⟩ := h
    obtain ⟨groupBy, aggExprs, below, idxs, hlinear, hne, hmerge, hshows⟩ := ih hchild
    exact ⟨groupBy, aggExprs, below, _, hlinear, hne, hmerge, fun db => (hshows db).project hcolumn (hsrc db) hdst⟩
  | aggregate groupBy aggExprs child =>
    obtain ⟨hlinear, hne, hmerge, hnodup⟩ := h
    exact ⟨groupBy, aggExprs, child, _, hlinear, hne, hmerge, fun db => shows_aggregate orderBy bound hnodup⟩
  | scan | filter | sort | limit | join | distinct => exact h.elim

variable {mi : MergeInfo}

theorem eq_nil_of_reAggregatePartials {columns : List String}
    (h : reAggregatePartials columns mi [] = some combined) : combined = [] := by
  unfold reAggregatePartials at h
  split at h
  · exact (Option.some.inj h).symm
  · obtain ⟨groupIdx, -, rfl⟩ := Option.map_eq_some_iff.mp h
    exact ite_self _

variable {child : Plan} {tables : List (List Row)}

theorem combinePartials_of_shows {groupBy : List String} {aggExprs : List AggExpr}
    {idxs : List Nat} (h : Shows db core groupBy aggExprs child mi idxs) (hne : aggExprs ≠ [])
    (hmerge : ∀ agg ∈ aggExprs, agg.Mergeable) (htables : tables ≠ []) {rows : List Row}
    (hrows : rows.Perm (tables.flatMap fun table =>
      (aggregateRows (child.columns db) groupBy aggExprs table).map (picks idxs))) :
    ∃ combined, combinePartials (core.columns db) mi rows = some combined ∧
      combined.Perm ((aggregateRows (child.columns db) groupBy aggExprs tables.flatten).map (picks idxs)) := by
  rw [← map_flatMap] at hrows
  by_cases hgroup : groupBy = []
  · subst hgroup
    have hscalar : aggregateRows (child.columns db) [] aggExprs =
        fun table => [aggValues (child.columns db) aggExprs table] := rfl
    rw [hscalar, ← map_eq_flatMap] at hrows
    have hnonempty : rows.isEmpty = false := by
      rw [hrows.isEmpty_eq]
      simpa using htables
    have hgroupBy : mi.groupBy.isEmpty := by simpa using h.length
    refine ⟨_, ?_, List.Perm.of_eq (h.mergeScalarAggregates_eq hne hmerge htables hrows)⟩
    simp [combinePartials, h.hasAggregate, hnonempty, hgroupBy]
  · have hgroupBy : mi.groupBy.isEmpty = false := by
      have hlength := h.length
      have := length_pos_iff.mpr hgroup
      cases hnil : mi.groupBy with
      | nil => simp [hnil] at hlength; omega
      | cons => rfl
    obtain ⟨combined, hcombined, hperm⟩ := h.reAggregatePartials_perm hne hgroup hmerge hrows
    refine ⟨combined, ?_, hperm⟩
    cases rows with
    | nil =>
      obtain rfl := eq_nil_of_reAggregatePartials hcombined
      simp [combinePartials, h.hasAggregate]
    | cons row rest => simpa [combinePartials, h.hasAggregate, hgroupBy] using hcombined

theorem answersPlan_of_renamed (hcore : plan.stripTopSortLimit.Renamed scanAlias) :
    AnswersPlan plan scanAlias (extractMergeInfo plan) := by
  intro db slices parts hresolves hne hslices hparts
  obtain ⟨groupBy, aggExprs, child, idxs, hlinear, haggs, hmerge, hshows⟩ :=
    hcore.shows plan.belowLimit.topSort plan.topLimit
  have htask : taskPlan plan = plan.stripTopSortLimit := if_pos (hshows db).hasAggregate
  have hshown : List.Forall₂ (fun slice part => ∃ rows, child.Answer (restrict db scanAlias slice) rows ∧
      part.Perm ((aggregateRows (child.columns db) groupBy aggExprs rows).map (picks idxs))) slices parts := by
    refine hparts.imp fun slice part hpart => ?_
    rw [htask] at hpart
    simpa only [Plan.columns_restrict] using ((hshows _).answer_iff part).mp hpart
  obtain ⟨tables, htables, hperm⟩ := forall₂_exists_perm hshown
  have hfilled : tables ≠ [] := by
    rintro rfl
    exact hne (forall₂_nil_right_iff.mp htables)
  obtain ⟨whole, hwhole, hall⟩ := hlinear.exists_answer hne hslices htables
  obtain ⟨combined, hcombined, hsame⟩ := combinePartials_of_shows (hshows db) haggs hmerge hfilled hperm
  rw [columns_strip] at hcombined
  rw [columns_taskPlan]
  exact answersPlan_of_combined hresolves (hshows db).permClosed hcombined
    (((hshows db).answer_iff combined).mpr
      ⟨whole, hwhole, hsame.trans ((aggregateRows_perm groupBy aggExprs hall).map _).symm⟩)

theorem exists_below_top (hclosed : ∀ db, plan.stripTopSortLimit.PermClosed db)
    (hparts : List.Forall₂ (fun slice part => plan.Answer (restrict db scanAlias slice) part) slices parts) :
    ∃ tables sorteds, List.Forall₂ (fun slice rows =>
        plan.stripTopSortLimit.Answer (restrict db scanAlias slice) rows) slices tables ∧
      List.Forall₂ (Arranges (rowLe (plan.columns db) plan.belowLimit.topSort)) tables sorteds ∧
        parts = sorteds.map (limitRows plan.topLimit.1 plan.topLimit.2) := by
  induction hparts with
  | nil => exact ⟨[], [], .nil, .nil, rfl⟩
  | cons hpart _ ih =>
    obtain ⟨tables, sorteds, htables, hsorteds, rfl⟩ := ih
    obtain ⟨rows, sorted, hrows, harranges, rfl⟩ := (answer_iff (hclosed _) _).mp hpart
    rw [Plan.columns_restrict] at harranges
    exact ⟨rows :: tables, sorted :: sorteds, .cons hrows htables, .cons harranges hsorteds, rfl⟩

variable {le : Row → Row → Bool} {sorteds : List (List Row)}

theorem Arranges.flatten_perm
    (h : List.Forall₂ (Arranges le) tables sorteds) : sorteds.flatten.Perm tables.flatten := by
  induction h with
  | nil => exact List.Perm.refl _
  | cons hhead _ ih => exact hhead.perm.append ih

section Bounds

variable {le : Row → Row → Bool} {limitVal : Option Nat} {offsetVal : Nat} {sorteds : List (List Row)}
  {sorted : List Row}

theorem exists_arranges_limitRows {merge : List Row → List Row} (hle : IsOrder le)
    (hbound : offsetVal = 0 ∨ limitVal = some 0)
    (htake : ∀ n, Arranges le (merge (sorteds.map (take n)).flatten) sorted →
      ∃ all, Arranges le (merge sorteds.flatten) all ∧ all.take n = sorted.take n)
    (h : Arranges le (merge (sorteds.map (limitRows limitVal offsetVal)).flatten) sorted) :
    ∃ all, Arranges le (merge sorteds.flatten) all ∧
      limitRows limitVal offsetVal all = limitRows limitVal offsetVal sorted := by
  rcases hbound with rfl | rfl
  · cases limitVal with
    | none =>
      have hid : limitRows none 0 = id := funext limitRows_none
      rw [hid, map_id] at h
      exact ⟨sorted, h, rfl⟩
    | some n => exact htake n h
  · exact ⟨_, hle.arranges_mergeSort _, rfl⟩

end Bounds

theorem pairwise_of_arranges
    (h : List.Forall₂ (Arranges le) tables sorteds) : ∀ part ∈ sorteds, part.Pairwise fun a b => le a b := by
  intro part hpart
  obtain ⟨table, -, harranges⟩ := exists_of_forall₂ h part hpart
  exact harranges.ordered

theorem Plan.Linear.shape (h : core.Linear scanAlias) (orderBy : List OrderExpr)
    (bound : Option Nat × Nat) :
    (core.shape orderBy bound).hasAggregate = false ∧ (core.shape orderBy bound).hasDistinct = false := by
  induction core with
  | project projections child ih => exact ih h
  | scan | filter | sort | join => exact ⟨rfl, rfl⟩
  | aggregate | limit | distinct => exact h.elim

theorem answersPlan_of_merge (merge : List Row → List Row)
    (hbound : plan.topLimit.2 = 0 ∨ plan.topLimit.1 = some 0)
    (hclosed : ∀ db, plan.stripTopSortLimit.PermClosed db) (htask : taskPlan plan = plan)
    (hcombine : ∀ columns rows, combinePartials columns (extractMergeInfo plan) rows = some (merge rows))
    (hmerge : ∀ {db slices tables sorteds}, slices ≠ [] → slices.flatten.Perm (db scanAlias).rows →
      List.Forall₂ (fun slice rows => plan.stripTopSortLimit.Answer (restrict db scanAlias slice) rows)
        slices tables →
      List.Forall₂ (Arranges (rowLe (plan.columns db) plan.belowLimit.topSort)) tables sorteds →
        plan.stripTopSortLimit.Answer db (merge sorteds.flatten) ∧
          ∀ {n sorted}, Arranges (rowLe (plan.columns db) plan.belowLimit.topSort)
            (merge (sorteds.map (take n)).flatten) sorted →
              ∃ all, Arranges (rowLe (plan.columns db) plan.belowLimit.topSort) (merge sorteds.flatten) all ∧
                all.take n = sorted.take n) :
    AnswersPlan plan scanAlias (extractMergeInfo plan) := by
  intro db slices parts hresolves hne hslices hparts
  obtain ⟨horder, hlimit, hoffset⟩ := shape_bound plan.belowLimit.topSort plan.topLimit plan.stripTopSortLimit
  rw [htask] at hparts ⊢
  refine ⟨exists_merges (fun key hkey => hresolves key (horder ▸ hkey)) (hcombine _ _), fun out hout => ?_⟩
  obtain ⟨tables, sorteds, htables, hsorteds, rfl⟩ := exists_below_top hclosed hparts
  obtain ⟨combined, sorted, hcombined, harranges, rfl⟩ := hout.exists_sorted
  obtain rfl := Option.some.inj ((hcombine _ _).symm.trans hcombined)
  rw [show (extractMergeInfo plan).orderBy = _ from horder] at harranges
  rw [show (extractMergeInfo plan).limit = _ from hlimit, show (extractMergeInfo plan).offset = _ from hoffset]
  obtain ⟨hanswer, htake⟩ := hmerge hne hslices htables hsorteds
  obtain ⟨all, hall, hlimited⟩ := exists_arranges_limitRows (isOrder_rowLe _) hbound (fun n => htake) harranges
  exact (answer_iff (hclosed db) _).mpr ⟨_, all, hanswer, hall, hlimited.symm⟩

theorem answersPlan_of_linear (hbound : plan.topLimit.2 = 0 ∨ plan.topLimit.1 = some 0)
    (hcore : plan.stripTopSortLimit.Linear scanAlias) (hfree : plan.stripTopSortLimit.Unordered) :
    AnswersPlan plan scanAlias (extractMergeInfo plan) := by
  obtain ⟨hagg, hdistinct⟩ := hcore.shape plan.belowLimit.topSort plan.topLimit
  refine answersPlan_of_merge id hbound (fun _ => hfree.permClosed) (if_neg (by simp [extractMergeInfo, hagg]))
    (fun columns rows => by simp [combinePartials, extractMergeInfo, hagg, hdistinct])
    fun hne hslices htables hsorteds => ⟨?_, ?_⟩
  · obtain ⟨whole, hwhole, hall⟩ := hcore.exists_answer hne hslices htables
    exact hfree.permClosed _ _ hwhole (hall.trans (Arranges.flatten_perm hsorteds).symm)
  · exact exists_arranges_of_parts (isOrder_rowLe _) (pairwise_of_arranges hsorteds)

section Distinct

theorem Plan.Listed.length_row (h : core.Listed) {out : List Row} (hout : core.Answer db out) :
    ∀ row ∈ out, row.length = (core.columns db).length := by
  induction core generalizing out with
  | project projections child =>
    obtain ⟨rows, -, rfl⟩ := hout
    simp [Plan.columns, projectRow]
  | filter pred child ih =>
    obtain ⟨rows, hrows, rfl⟩ := hout
    exact fun row hrow => ih h hrows row (mem_filter.mp hrow).1
  | sort orderBy child ih =>
    obtain ⟨rows, hrows, harranges⟩ := hout
    exact fun row hrow => ih h hrows row (harranges.perm.mem_iff.mp hrow)
  | distinct child ih =>
    obtain ⟨rows, hrows, hperm⟩ := hout
    exact fun row hrow => ih h hrows row ((mem_distinctBy _ _).mp (hperm.mem_iff.mp hrow))
  | scan | aggregate | limit | join => exact h.elim

theorem projectRow_inj {columns : List String} {projections : List Projection} {a b : Row}
    (hcolumn : ∀ p ∈ projections, ∃ name, p.source = .column name)
    (hsrc : (projections.map Projection.src).Perm columns) (hnodup : columns.Nodup)
    (ha : a.length = columns.length) (hb : b.length = columns.length)
    (heq : projectRow columns projections a = projectRow columns projections b) : a = b := by
  refine ext_getElem (ha.trans hb.symm) fun i hi hi' => ?_
  have hlt : i < columns.length := ha ▸ hi
  obtain ⟨p, hp, hname⟩ := mem_map.mp (hsrc.mem_iff.mpr (getElem_mem hlt))
  obtain ⟨name, hsource⟩ := hcolumn p hp
  obtain rfl : name = columns[i] := by simpa [Projection.src, hsource] using hname
  have hidx : columns.idxOf? columns[i] = some i :=
    idxOf?_of_nodup hnodup (getElem?_eq_getElem hlt)
  have hcell := map_inj_left.mp heq p hp
  simpa [hsource, cell, hidx, hi, hi'] using hcell

theorem distinctBy_map_perm {f : Row → Row} {rows : List Row}
    (hf : ∀ a ∈ rows, ∀ b ∈ rows, f a = f b → a = b) :
    ((distinctBy eqKey rows).map f).Perm (distinctBy eqKey (rows.map f)) := by
  have hmem : ∀ {row}, row ∈ distinctBy eqKey rows ↔ row ∈ rows := mem_distinctBy _ _
  have hnodup : ((distinctBy eqKey rows).map f).Nodup :=
    (distinctBy_nodup rows).map_on fun a ha b hb => hf a (hmem.mp ha) b (hmem.mp hb)
  refine (perm_ext_iff_of_nodup hnodup (distinctBy_nodup _)).mpr fun row => ?_
  rw [mem_distinctBy, mem_map, mem_map]
  simp only [hmem]

theorem Plan.Deduped.unordered (h : core.Deduped scanAlias) : core.Unordered := by
  induction core with
  | project projections child ih => exact ih h.1
  | distinct => trivial
  | scan | filter | aggregate | sort | limit | join => exact h.elim

theorem Plan.Deduped.shape (h : core.Deduped scanAlias) (orderBy : List OrderExpr)
    (bound : Option Nat × Nat) :
    (core.shape orderBy bound).hasAggregate = false ∧ (core.shape orderBy bound).hasDistinct = true := by
  induction core with
  | project projections child ih => exact ih h.1
  | distinct => exact ⟨rfl, rfl⟩
  | scan | filter | aggregate | sort | limit | join => exact h.elim

-- `pick` is the composition of the projections.
theorem Plan.Deduped.answers (h : core.Deduped scanAlias) :
    ∃ (child : Plan) (pick : Database → Row → Row), child.Linear scanAlias ∧
      (∀ db slice, pick (restrict db scanAlias slice) = pick db) ∧
        ∀ db out, core.Answer db out ↔
          ∃ rows, child.Answer db rows ∧ out.Perm (distinctBy eqKey (rows.map (pick db))) := by
  induction core with
  | distinct child => exact ⟨child, fun _ => id, h, fun _ _ => rfl, fun db out => by simp [Plan.Answer]⟩
  | project projections below ih =>
    obtain ⟨hbelow, hlisted, hnodup, hcolumn, hsrc, -⟩ := id h
    obtain ⟨child, pick, hchild, hrestrict, hanswers⟩ := ih hbelow
    refine ⟨child, fun db row => projectRow (below.columns db) projections (pick db row), hchild,
      fun db slice => by simp only [columns_restrict, hrestrict], fun db out => ?_⟩
    have hpicked (rows : List Row) (hrows : child.Answer db rows) :
        ((distinctBy eqKey (rows.map (pick db))).map (projectRow (below.columns db) projections)).Perm
          (distinctBy eqKey (rows.map fun row => projectRow (below.columns db) projections (pick db row))) := by
      have hwide := hlisted.length_row ((hanswers db _).mpr ⟨rows, hrows, List.Perm.refl _⟩)
      simp only [mem_distinctBy] at hwide
      refine (distinctBy_map_perm fun a ha b hb => ?_).trans (.of_eq (by simp [Function.comp_def]))
      exact projectRow_inj hcolumn (hsrc db) (hnodup db) (hwide a ha) (hwide b hb)
    constructor
    · rintro ⟨rows', hrows', rfl⟩
      obtain ⟨rows, hrows, hperm⟩ := (hanswers db rows').mp hrows'
      exact ⟨rows, hrows, (hperm.map _).trans (hpicked rows hrows)⟩
    · rintro ⟨rows, hrows, hperm⟩
      refine h.unordered.permClosed _ _ ⟨_, (hanswers db _).mpr ⟨rows, hrows, List.Perm.refl _⟩, rfl⟩ ?_
      exact (hpicked rows hrows).trans hperm.symm
  | scan | filter | aggregate | sort | limit | join => exact h.elim

end Distinct

theorem answersPlan_of_deduped (hbound : plan.topLimit.2 = 0 ∨ plan.topLimit.1 = some 0)
    (hcore : plan.stripTopSortLimit.Deduped scanAlias) :
    AnswersPlan plan scanAlias (extractMergeInfo plan) := by
  obtain ⟨hagg, hdistinct⟩ := hcore.shape plan.belowLimit.topSort plan.topLimit
  obtain ⟨child, pick, hchild, hrestrict, hanswers⟩ := hcore.answers
  refine answersPlan_of_merge (distinctBy eqKey) hbound (fun db => hcore.unordered.permClosed)
    (if_neg (by simp [extractMergeInfo, hagg]))
    (fun columns rows => by simp [combinePartials, extractMergeInfo, hagg, hdistinct])
    fun {db slices tables sorteds} hne hslices htables hsorteds => ?_
  simp only [hanswers, hrestrict] at htables ⊢
  obtain ⟨inputs, hinputs, hperm⟩ := forall₂_exists_perm htables
  obtain ⟨whole, hwhole, hall⟩ := hchild.exists_answer hne hslices hinputs
  have hmem : ∀ row, row ∈ sorteds.flatten ↔ row ∈ whole.map (pick db) := by
    intro row
    rw [((Arranges.flatten_perm hsorteds).trans hperm).mem_iff, (hall.map (pick db)).mem_iff]
    simp [mem_distinctBy, mem_flatten]
  have hnodup : ∀ part ∈ sorteds, part.Nodup := by
    intro part hpart
    obtain ⟨table, htable, hpart⟩ := exists_of_forall₂ hsorteds part hpart
    obtain ⟨slice, -, rows, -, hrows⟩ := exists_of_forall₂ htables table htable
    exact (hpart.perm.trans hrows).nodup_iff.mpr (distinctBy_nodup _)
  refine ⟨⟨whole, hwhole, distinctBy_perm hmem⟩, fun h => ?_⟩
  exact exists_arranges_of_distinct_parts (isOrder_rowLe _) (pairwise_of_arranges hsorteds) hnodup h.ordered
    (h.perm.nodup_iff.mpr (distinctBy_nodup _)) (fun a => h.perm.mem_iff.trans (mem_distinctBy _ a))
    (distinctBy_nodup _) fun a => mem_distinctBy _ a

theorem answersPlan_of_splittable (h : plan.Splittable scanAlias) :
    AnswersPlan plan scanAlias (extractMergeInfo plan) := by
  rcases h with hcore | ⟨hbound, ⟨hcore, hfree⟩ | hcore⟩
  · exact answersPlan_of_renamed hcore
  · exact answersPlan_of_linear hbound hcore hfree
  · exact answersPlan_of_deduped hbound hcore

end Wadjet.Coordinator.ProbeSplit
