import Wadjet.Coordinator.ProbeSplit.Merge
import Wadjet.Data.CutJoin

namespace Wadjet.Coordinator.ProbeSplit

open Wadjet.Data List

namespace Plan

-- A subplan that does not read the probe and whose answer is one multiset.
def Whole (scanAlias : String) : Plan → Prop
  | scan other => other ≠ scanAlias
  | filter _ child => child.Whole scanAlias
  | project _ child => child.Whole scanAlias
  | aggregate _ _ child => child.Whole scanAlias
  | sort _ child => child.Whole scanAlias
  | limit _ _ _ => False
  | join _ _ left right => left.Whole scanAlias ∧ right.Whole scanAlias
  | distinct child => child.Whole scanAlias

-- A subplan that answers a row of the probe apart from its other rows.
def Linear (scanAlias : String) : Plan → Prop
  | scan other => other = scanAlias
  | filter _ child => child.Linear scanAlias
  | project _ child => child.Linear scanAlias
  | aggregate _ _ _ => False
  | sort _ child => child.Linear scanAlias
  | limit _ _ _ => False
  | join kind _ left right =>
    kind.cutsLeft ∧ left.Linear scanAlias ∧ right.Whole scanAlias ∨
      kind.cutsRight ∧ left.Whole scanAlias ∧ right.Linear scanAlias
  | distinct _ => False

-- No sort decides the order in which the rows come out.
def Unordered : Plan → Prop
  | filter _ child => child.Unordered
  | project _ child => child.Unordered
  | sort _ _ => False
  | limit _ _ _ => False
  | _ => True

def PermClosed (plan : Plan) (db : Database) : Prop :=
  ∀ rows rows', plan.Answer db rows → rows.Perm rows' → plan.Answer db rows'

end Plan

section Aggregates

variable {columns : List String} {rows rows' : List Row}

theorem aggInput_perm (agg : AggExpr) (h : rows.Perm rows') :
    (aggInput columns agg rows).Perm (aggInput columns agg rows') := by
  unfold aggInput
  split
  · exact h.map _
  · exact h.filterMap _

theorem aggValues_perm (aggExprs : List AggExpr) (h : rows.Perm rows') :
    aggValues columns aggExprs rows = aggValues columns aggExprs rows' := by
  refine map_congr_left fun agg _ => agg.func.value_perm ?_
  have hinput : (aggInput columns agg rows).Perm (aggInput columns agg rows') := aggInput_perm agg h
  split
  · exact distinctBy_perm fun _ => hinput.mem_iff
  · exact hinput

theorem aggregateRows_perm (groupBy : List String) (aggExprs : List AggExpr) (h : rows.Perm rows') :
    (aggregateRows columns groupBy aggExprs rows).Perm (aggregateRows columns groupBy aggExprs rows') := by
  unfold aggregateRows
  split
  · rw [aggValues_perm aggExprs h]
  · exact (rollup_congr h fun _ _ => aggValues_perm aggExprs).map _

end Aggregates

section Order

variable (key : OrderExpr)

theorem compareCells_swap (a b : Cell) : compareCells key a b = (compareCells key b a).swap := by
  rcases a with _ | x <;> rcases b with _ | y
  · rfl
  · simp only [compareCells]
    split <;> rfl
  · simp only [compareCells]
    split <;> rfl
  · simp only [compareCells]
    split <;> exact Std.OrientedCmp.eq_swap

theorem compareCells_trans (a b c : Cell) (hab : (compareCells key a b).isLE)
    (hbc : (compareCells key b c).isLE) : (compareCells key a c).isLE := by
  rcases a with _ | x <;> rcases b with _ | y <;> rcases c with _ | z <;>
    simp only [compareCells] at hab hbc ⊢
  -- A NULL is on the same side of every value.
  case some.some.some =>
    cases hdesc : key.desc with
    | true =>
      simp only [hdesc, if_true] at hab hbc ⊢
      exact Std.TransCmp.isLE_trans hbc hab
    | false =>
      simp only [hdesc, Bool.false_eq_true, if_false] at hab hbc ⊢
      exact Std.TransCmp.isLE_trans hab hbc
  all_goals cases hnulls : key.nullsLast <;> simp [hnulls] at hab hbc ⊢

variable {columns : List String}

theorem compareRows_eq (rest : List OrderExpr) : compareRows columns (key :: rest) =
      compareLex (fun a b => compareCells key (cell columns key.column a) (cell columns key.column b))
        (compareRows columns rest) := rfl

variable (orderBy : List OrderExpr)

theorem compareRows_trans : Std.TransCmp (compareRows columns orderBy) := by
  induction orderBy with
  | nil => exact { eq_swap := rfl, isLE_trans := fun _ _ => rfl }
  | cons key rest ih =>
    rw [compareRows_eq]
    have hkey : Std.TransCmp fun a b =>
        compareCells key (cell columns key.column a) (cell columns key.column b) :=
      { eq_swap := compareCells_swap key _ _, isLE_trans := compareCells_trans key _ _ _ }
    infer_instance

theorem isOrder_rowLe : IsOrder (rowLe columns orderBy) := by
  have h : Std.TransCmp (compareRows columns orderBy) := compareRows_trans orderBy
  constructor
  · intro a b c hab hbc
    exact Std.TransCmp.isLE_trans hab hbc
  · intro a b
    have hswap : compareRows columns orderBy b a = (compareRows columns orderBy a b).swap :=
      Std.OrientedCmp.eq_swap
    rw [rowLe, rowLe, hswap]
    cases compareRows columns orderBy a b <;> simp

end Order

namespace Plan

variable {scanAlias : String} {db : Database}

theorem columns_restrict (slice : List Row) (plan : Plan) :
    plan.columns (restrict db scanAlias slice) = plan.columns db := by
  induction plan with
  | scan other =>
    by_cases h : other = scanAlias
    · simp [columns, restrict, h]
    · simp [columns, restrict, h]
  | project | aggregate => rfl
  | filter _ _ ih | sort _ _ ih | limit _ _ _ ih | distinct _ ih => exact ih
  | join kind on left right ihl ihr => rw [columns, columns, ihl, ihr]

theorem Whole.answer_restrict_iff {plan : Plan} (h : plan.Whole scanAlias) (slice out : List Row) :
    plan.Answer (restrict db scanAlias slice) out ↔ plan.Answer db out := by
  induction plan generalizing out with
  | scan other =>
    have hne : other ≠ scanAlias := h
    simp [Answer, restrict, hne]
  | filter pred child ih => simp only [Answer, ih h]
  | project projections child ih => simp only [Answer, ih h, columns_restrict]
  | aggregate groupBy aggExprs child ih => simp only [Answer, ih h, columns_restrict]
  | sort orderBy child ih => simp only [Answer, ih h, columns_restrict]
  | limit => exact h.elim
  | join kind on left right ihl ihr => simp only [Answer, ihl h.1, ihr h.2, columns_restrict]
  | distinct child ih => simp only [Answer, ih h]

theorem Whole.answer_perm {plan : Plan} (h : plan.Whole scanAlias) {out out' : List Row}
    (hout : plan.Answer db out) (hout' : plan.Answer db out') : out.Perm out' := by
  induction plan generalizing out out' with
  | scan other => exact hout.trans hout'.symm
  | filter pred child ih =>
    obtain ⟨rows, hrows, rfl⟩ := hout
    obtain ⟨rows', hrows', rfl⟩ := hout'
    exact (ih h hrows hrows').filter pred
  | project projections child ih =>
    obtain ⟨rows, hrows, rfl⟩ := hout
    obtain ⟨rows', hrows', rfl⟩ := hout'
    exact (ih h hrows hrows').map _
  | aggregate groupBy aggExprs child ih =>
    obtain ⟨rows, hrows, hperm⟩ := hout
    obtain ⟨rows', hrows', hperm'⟩ := hout'
    exact hperm.trans ((aggregateRows_perm groupBy aggExprs (ih h hrows hrows')).trans hperm'.symm)
  | sort orderBy child ih =>
    obtain ⟨rows, hrows, harranges⟩ := hout
    obtain ⟨rows', hrows', harranges'⟩ := hout'
    exact harranges.perm.trans ((ih h hrows hrows').trans harranges'.perm.symm)
  | limit => exact h.elim
  | join kind on left right ihl ihr =>
    obtain ⟨ls, rs, hl, hr, hperm⟩ := hout
    obtain ⟨ls', rs', hl', hr', hperm'⟩ := hout'
    exact hperm.trans (((join_perm on kind (ihl h.1 hl hl') (ihr h.2 hr hr')).map _).trans hperm'.symm)
  | distinct child ih =>
    obtain ⟨rows, hrows, hperm⟩ := hout
    obtain ⟨rows', hrows', hperm'⟩ := hout'
    exact hperm.trans ((distinctBy_perm fun _ => (ih h hrows hrows').mem_iff).trans hperm'.symm)

variable {child : Plan}

theorem permClosed_filter (pred : Row → Bool) (h : child.PermClosed db) : (filter pred child).PermClosed db := by
  rintro out out' ⟨rows, hrows, rfl⟩ hperm
  refine ⟨out' ++ rows.filter (fun row => !pred row), h rows _ hrows ?_, ?_⟩
  · exact (filter_append_perm pred rows).symm.trans (hperm.append_right _)
  · have hall : out'.filter pred = out' :=
      filter_eq_self.mpr fun row hrow => (mem_filter.mp (hperm.mem_iff.mpr hrow)).2
    simp [hall]

theorem permClosed_project (projections : List Projection) (h : child.PermClosed db) :
    (project projections child).PermClosed db := by
  rintro out out' ⟨rows, hrows, rfl⟩ hperm
  have hmap : List.Forall₂ (fun out row => out = projectRow (child.columns db) projections row)
      (rows.map (projectRow (child.columns db) projections)) rows :=
    forall₂_map_left_iff.mpr (forall₂_same.mpr fun _ _ => rfl)
  obtain ⟨rows', hmap', hrows'⟩ := perm_comp_forall₂ hperm.symm hmap
  refine ⟨rows', h rows rows' hrows hrows'.symm, ?_⟩
  exact forall₂_eq_eq_eq ▸ forall₂_map_right_iff.mpr hmap'

theorem Unordered.permClosed {plan : Plan} (h : plan.Unordered) : plan.PermClosed db := by
  induction plan with
  | filter pred child ih => exact permClosed_filter pred (ih h)
  | project projections child ih => exact permClosed_project projections (ih h)
  | scan =>
    intro out out' hout hperm
    exact hperm.symm.trans hout
  | aggregate | distinct =>
    rintro out out' ⟨rows, hrows, hout⟩ hperm
    exact ⟨rows, hrows, hperm.symm.trans hout⟩
  | join =>
    rintro out out' ⟨ls, rs, hl, hr, hout⟩ hperm
    exact ⟨ls, rs, hl, hr, hperm.symm.trans hout⟩
  | sort | limit => exact h.elim

end Plan

section Tasks

variable {σ τ : Type} {slices : List σ} {parts : List (List τ)} {γ : Type} {answer : σ → γ → Prop}
  {f : γ → List τ}

theorem forall₂_exists_map
    (h : List.Forall₂ (fun slice part => ∃ rows, answer slice rows ∧ part = f rows) slices parts) :
    ∃ answers, List.Forall₂ answer slices answers ∧ parts = answers.map f := by
  induction h with
  | nil => exact ⟨[], .nil, rfl⟩
  | cons hhead _ ih =>
    obtain ⟨rows, hrows, rfl⟩ := hhead
    obtain ⟨answers, hanswers, rfl⟩ := ih
    exact ⟨rows :: answers, .cons hrows hanswers, rfl⟩

theorem forall₂_exists_perm
    (h : List.Forall₂ (fun slice part => ∃ rows, answer slice rows ∧ part.Perm (f rows)) slices parts) :
    ∃ answers, List.Forall₂ answer slices answers ∧ parts.flatten.Perm (answers.flatMap f) := by
  induction h with
  | nil => exact ⟨[], .nil, List.Perm.refl _⟩
  | cons hhead _ ih =>
    obtain ⟨rows, hrows, hpart⟩ := hhead
    obtain ⟨answers, hanswers, hperm⟩ := ih
    exact ⟨rows :: answers, .cons hrows hanswers, hpart.append hperm⟩

theorem exists_of_forall₂ {answer : σ → List τ → Prop} (h : List.Forall₂ answer slices parts) :
    ∀ part ∈ parts, ∃ slice ∈ slices, answer slice part := by
  induction h with
  | nil => simp
  | cons hhead _ ih =>
    intro part hpart
    rcases mem_cons.mp hpart with rfl | hpart
    · exact ⟨_, mem_cons_self, hhead⟩
    · obtain ⟨slice, hslice, hanswer⟩ := ih part hpart
      exact ⟨slice, mem_cons_of_mem _ hslice, hanswer⟩

end Tasks

namespace Plan

variable {scanAlias : String} {db : Database} {slices parts : List (List Row)} {plan : Plan}

theorem Whole.exists_answer (h : plan.Whole scanAlias) (hne : slices ≠ [])
    (hparts : List.Forall₂ (fun slice part => plan.Answer (restrict db scanAlias slice) part) slices parts) :
    ∃ rows, plan.Answer db rows ∧ ∀ part ∈ parts, part.Perm rows := by
  have hall : ∀ part ∈ parts, plan.Answer db part := by
    intro part hpart
    obtain ⟨slice, -, hanswer⟩ := exists_of_forall₂ hparts part hpart
    exact (h.answer_restrict_iff slice part).mp hanswer
  cases parts with
  | nil => cases hparts; exact absurd rfl hne
  | cons part rest =>
    have hfirst := hall part mem_cons_self
    exact ⟨part, hfirst, fun other hother => h.answer_perm (hall other hother) hfirst⟩

-- The answers over the slices together are, up to order, an answer over the whole probe.
theorem Linear.exists_answer (h : plan.Linear scanAlias) (hne : slices ≠ [])
    (hslices : slices.flatten.Perm (db scanAlias).rows)
    (hparts : List.Forall₂ (fun slice part => plan.Answer (restrict db scanAlias slice) part) slices parts) :
    ∃ out, plan.Answer db out ∧ out.Perm parts.flatten := by
  induction plan generalizing parts with
  | scan other =>
    obtain rfl : other = scanAlias := h
    have hperm : List.Forall₂ (fun slice part => ∃ rows, slice = rows ∧ part.Perm (id rows)) slices parts :=
      hparts.imp fun slice part hpart => ⟨slice, rfl, by simpa [Answer, restrict] using hpart⟩
    obtain ⟨answers, heq, hperm⟩ := forall₂_exists_perm hperm
    obtain rfl : slices = answers := forall₂_eq_eq_eq ▸ heq
    exact ⟨_, hperm.trans (by simpa using hslices), List.Perm.refl _⟩
  | filter pred child ih =>
    obtain ⟨answers, hanswers, rfl⟩ := forall₂_exists_map hparts
    obtain ⟨rows, hrows, hperm⟩ := ih h hanswers
    exact ⟨_, ⟨rows, hrows, rfl⟩, (hperm.filter pred).trans (.of_eq filter_flatten)⟩
  | project projections child ih =>
    simp only [Answer, columns_restrict] at hparts
    obtain ⟨answers, hanswers, rfl⟩ := forall₂_exists_map hparts
    obtain ⟨rows, hrows, hperm⟩ := ih h hanswers
    exact ⟨_, ⟨rows, hrows, rfl⟩, (hperm.map _).trans (.of_eq map_flatten)⟩
  | sort orderBy child ih =>
    have hsame : List.Forall₂ (fun slice part => ∃ rows,
        child.Answer (restrict db scanAlias slice) rows ∧ part.Perm (id rows)) slices parts :=
      hparts.imp fun slice part ⟨rows, hrows, harranges⟩ => ⟨rows, hrows, harranges.perm⟩
    obtain ⟨answers, hanswers, hall⟩ := forall₂_exists_perm hsame
    obtain ⟨rows, hrows, hperm⟩ := ih h hanswers
    have harranges := (@isOrder_rowLe (child.columns db) orderBy).arranges_mergeSort rows
    refine ⟨_, ⟨rows, hrows, harranges⟩, harranges.perm.trans (hperm.trans ?_)⟩
    simpa using hall.symm
  | join kind on left right ihl ihr =>
    simp only [Answer, columns_restrict] at hparts
    have hpairs : List.Forall₂ (fun slice part => ∃ pair : List Row × List Row,
        (left.Answer (restrict db scanAlias slice) pair.1 ∧ right.Answer (restrict db scanAlias slice) pair.2) ∧
          part.Perm ((Data.join on kind pair.1 pair.2).map
            (joinRow kind (left.columns db).length (right.columns db).length))) slices parts :=
      hparts.imp fun slice part ⟨ls, rs, hl, hr, hperm⟩ => ⟨(ls, rs), ⟨hl, hr⟩, hperm⟩
    obtain ⟨pairs, hpairs, hperm⟩ := forall₂_exists_perm hpairs
    have hl : List.Forall₂ (fun slice part => left.Answer (restrict db scanAlias slice) part) slices
        (pairs.map Prod.fst) := forall₂_map_right_iff.mpr (hpairs.imp fun _ _ h => h.1)
    have hr : List.Forall₂ (fun slice part => right.Answer (restrict db scanAlias slice) part) slices
        (pairs.map Prod.snd) := forall₂_map_right_iff.mpr (hpairs.imp fun _ _ h => h.2)
    rcases h with ⟨hkind, hleft, hright⟩ | ⟨hkind, hleft, hright⟩
    · obtain ⟨rs, hrs, hsame⟩ := hright.exists_answer hne hr
      obtain ⟨ls, hls, hall⟩ := ihl hleft hl
      refine ⟨_, ⟨ls, rs, hls, hrs, hperm.trans ?_⟩, List.Perm.refl _⟩
      refine List.Perm.trans ?_ (((join_perm on kind hall (List.Perm.refl rs)).trans
        (join_flatten_left hkind _ rs)).map _).symm
      rw [map_flatMap, flatMap_map]
      refine List.Perm.flatMap_left _ fun pair hpair => (join_perm on kind (List.Perm.refl _) ?_).map _
      exact hsame _ (mem_map_of_mem hpair)
    · obtain ⟨ls, hls, hsame⟩ := hleft.exists_answer hne hl
      obtain ⟨rs, hrs, hall⟩ := ihr hright hr
      refine ⟨_, ⟨ls, rs, hls, hrs, hperm.trans ?_⟩, List.Perm.refl _⟩
      refine List.Perm.trans ?_ (((join_perm on kind (List.Perm.refl ls) hall).trans
        (join_flatten_right hkind ls _)).map _).symm
      rw [map_flatMap, flatMap_map]
      refine List.Perm.flatMap_left _ fun pair hpair => (join_perm on kind ?_ (List.Perm.refl _)).map _
      exact hsame _ (mem_map_of_mem hpair)
  | aggregate | limit | distinct => exact h.elim

end Plan

end Wadjet.Coordinator.ProbeSplit
