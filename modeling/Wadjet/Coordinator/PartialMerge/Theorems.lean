import Wadjet.Coordinator.PartialMerge.Cells
import Wadjet.Data.Results

namespace Wadjet.Coordinator.PartialMerge

open Wadjet.Data Wadjet.Engine List

-- What the vectors of a partial result can hold.
structure Fits (types : List KeyType) (cols : List AggCol) (row : PartialRow) : Prop where
  keys : Typed types row.keys
  cells : ∀ entry ∈ cols.zipIdx, ∀ v ∈ cellAt entry.2 row, entry.1.holds v

section Grouped

variable (cidrOrderKey : Bytes → Bytes) (types : List KeyType) (cols : List AggCol) (rows : List PartialRow)

def cellsOf (row : PartialRow) (j : Nat) : List (Option Int) :=
  (rows.filter fun other => eqKey (keyOf cidrOrderKey row.keys) (keyOf cidrOrderKey other.keys)).map (cellAt j)

def NullsApart : Prop :=
  ∀ row ∈ rows, ∀ other ∈ rows, slots cidrOrderKey types row.keys = slots cidrOrderKey types other.keys →
    keyOf cidrOrderKey row.keys = keyOf cidrOrderKey other.keys

def TextsApart : Prop :=
  ∀ row ∈ rows, ∀ other ∈ rows, Told (slots cidrOrderKey types row.keys) (slots cidrOrderKey types other.keys)

def GroupsKept : Prop :=
  ∀ row ∈ rows, ∀ entry ∈ cols.zipIdx, entry.1.Kept (cellsOf cidrOrderKey rows row entry.2)

def GroupsUnrounded : Prop :=
  ∀ row ∈ rows, ∀ entry ∈ cols.zipIdx, entry.1.isInt64Sum →
    Unrounded ((cellsOf cidrOrderKey rows row entry.2).map (·.getD 0))

variable (procs : Nat) (parts : List (List InputRow))

def GroupedRight : Prop :=
  ((reAggregatePartials cidrOrderKey types cols procs rows).map (shown cidrOrderKey)).Perm
    (sqlAggregate cidrOrderKey cols parts.flatten)

end Grouped

def ScalarRight (cols : List AggCol) (rows : List PartialRow) (parts : List (List InputRow)) : Prop :=
  (mergeScalarAggregates cols rows).map (·.map PartialRow.aggs) = .ok [measure cols parts.flatten]

variable {parts : List (List InputRow)} {cidrOrderKey : Bytes → Bytes} {types : List KeyType}
  {cols : List AggCol} {procs : Nat} {batches : List (List PartialRow)}

theorem groupedRight_iff (hcols : cols ≠ []) (h : Partials cidrOrderKey cols parts batches) :
    GroupedRight cidrOrderKey types cols batches.flatten procs parts ↔
      (∀ row ∈ batches.flatten, ∀ other ∈ batches.flatten,
        rowKey cidrOrderKey types row = rowKey cidrOrderKey types other →
          keyOf cidrOrderKey row.keys = keyOf cidrOrderKey other.keys) ∧
        ∀ row ∈ batches.flatten, ∀ entry ∈ cols.zipIdx,
          some (entry.1.store (foldCells entry.1 (cellsOf cidrOrderKey batches.flatten row entry.2))) =
            entry.1.func.combine (cellsOf cidrOrderKey batches.flatten row entry.2) := by
  have hcode : ∀ row ∈ batches.flatten, ∀ other ∈ batches.flatten,
      keyOf cidrOrderKey row.keys = keyOf cidrOrderKey other.keys →
        rowKey cidrOrderKey types row = rowKey cidrOrderKey types other := by
    intro row _ other _ hkeys
    rw [rowKey_eq, rowKey_eq, slots_congr types hkeys]
  rw [GroupedRight, (reAggregatePartials_perm procs hcols).congr_left, (sqlAggregate_perm h).congr_right]
  rw [map_groups_perm_iff hcode (fun _ _ => rfl)]
  simp only [combinedCells_eq, mergedCells, map_inj_left]
  rfl

theorem cells_fit {rows : List PartialRow} (hfits : ∀ row ∈ rows, Fits types cols row) (row : PartialRow)
    {entry : AggCol × Nat} (hentry : entry ∈ cols.zipIdx) :
    ∀ v, some v ∈ cellsOf cidrOrderKey rows row entry.2 → entry.1.holds v := by
  intro v hv
  obtain ⟨other, hother, hcell⟩ := mem_map.mp hv
  exact (hfits other (mem_filter.mp hother).1).cells entry hentry v hcell

theorem groupedRight_of_kept (hcols : cols ≠ []) (h : Partials cidrOrderKey cols parts batches)
    (hfits : ∀ row ∈ batches.flatten, Fits types cols row) (hnulls : NullsApart cidrOrderKey types batches.flatten)
    (htexts : TextsApart cidrOrderKey types batches.flatten) (hkept : GroupsKept cidrOrderKey cols batches.flatten)
    (hround : GroupsUnrounded cidrOrderKey cols batches.flatten) :
    GroupedRight cidrOrderKey types cols batches.flatten procs parts := by
  refine (groupedRight_iff hcols h).mpr ⟨fun row hrow other hother hkey => ?_, fun row hrow entry hentry => ?_⟩
  · rw [rowKey_eq, rowKey_eq] at hkey
    refine hnulls row hrow other hother (eq_of_joined ?_ (htexts row hrow other hother) hkey)
    rw [types_slots (hfits row hrow).keys, types_slots (hfits other hother).keys]
  · exact cell_of_kept (cells_fit hfits row hentry) (hkept row hrow entry hentry) (hround row hrow entry hentry)

theorem kept_of_groupedRight (hcols : cols ≠ []) (h : Partials cidrOrderKey cols parts batches)
    (hfits : ∀ row ∈ batches.flatten, Fits types cols row)
    (hright : GroupedRight cidrOrderKey types cols batches.flatten procs parts) :
    NullsApart cidrOrderKey types batches.flatten ∧ GroupsKept cidrOrderKey cols batches.flatten := by
  obtain ⟨hkeys, hcells⟩ := (groupedRight_iff hcols h).mp hright
  refine ⟨fun row hrow other hother hslots => hkeys row hrow other hother ?_, fun row hrow entry hentry => ?_⟩
  · rw [rowKey_eq, rowKey_eq, hslots]
  · exact kept_of_cell (cells_fit hfits row hentry) (hcells row hrow entry hentry)

theorem reAggregatePartials_keys (h : Partials cidrOrderKey [] parts batches) :
    ((reAggregatePartials cidrOrderKey types [] procs batches.flatten).map (shown cidrOrderKey)).Perm
        (sqlAggregate cidrOrderKey [] parts.flatten) ↔
      (batches.flatten.map fun row => keyOf cidrOrderKey row.keys).Nodup := by
  let key : PartialRow → List (Option KeyValue) := fun row => keyOf cidrOrderKey row.keys
  have hkeys :
      ((reAggregatePartials cidrOrderKey types [] procs batches.flatten).map (shown cidrOrderKey)).map Prod.fst =
      batches.flatten.map key := by
    rw [reAggregatePartials, if_pos (by simp), map_map]
    rfl
  -- No cells: a row is its key.
  have hcells : ∀ entry ∈ parts.flatMap (sqlAggregate cidrOrderKey []), entry.2 = [] := by
    intro entry hentry
    obtain ⟨part, -, hmem⟩ := mem_flatMap.mp hentry
    obtain ⟨group, -, rfl⟩ := mem_map.mp hmem
    rfl
  constructor
  · intro hperm
    rw [← hkeys, (hperm.map Prod.fst).nodup_iff, sqlAggregate, map_fst_rollup]
    exact distinctBy_nodup _
  · intro hnodup
    have hshown : batches.flatten.map (shown cidrOrderKey) = (batches.flatten.map key).map fun k => (k, []) := by
      rw [map_map]
      refine map_congr_left fun row hrow => Prod.ext rfl ?_
      exact hcells _ ((shown_perm h).mem_iff.mp (mem_map_of_mem hrow))
    have hdistinct : (batches.flatten.map key).Perm (distinctBy eqKey (batches.flatten.map key)) :=
      (perm_ext_iff_of_nodup hnodup (distinctBy_nodup _)).mpr fun k => (mem_distinctBy _ k).symm
    rw [reAggregatePartials, if_pos (by simp), hshown]
    refine (hdistinct.map _).trans (List.Perm.trans (List.Perm.of_eq ?_) (sqlAggregate_perm h).symm)
    rw [groups, map_map]
    rfl

variable {rows : List PartialRow}

private theorem map_aggs_eq
    (h : List.Forall₂ (fun part row => row.aggs = measure cols part) parts rows) :
    rows.map PartialRow.aggs = parts.map (measure cols) := by
  induction h with
  | nil => rfl
  | cons hrow _ ih => rw [map_cons, map_cons, hrow, ih]

theorem scalarRight_iff (hcols : cols ≠ []) (hparts : parts ≠ [])
    (h : List.Forall₂ (fun part row => row.aggs = measure cols part) parts rows) :
    ScalarRight cols rows parts ↔ rows.length ≤ 1 ∨ ∀ entry ∈ cols.zipIdx,
      scalarCell entry.1 (rows.map (cellAt entry.2)) = .ok (entry.1.func.combine (rows.map (cellAt entry.2))) := by
  have hisEmpty : cols.isEmpty = false := by simpa using hcols
  rw [ScalarRight, mergeScalarAggregates, hisEmpty]
  by_cases hone : rows.length ≤ 1
  · rw [if_pos (by simpa using hone)]
    refine iff_of_true (congrArg Except.ok ?_) (.inl hone)
    -- One part: its row is the answer.
    have hlength : parts.length = 1 :=
      le_antisymm (h.length_eq ▸ hone) (length_pos_iff.mpr hparts)
    obtain ⟨part, rfl⟩ := length_eq_one_iff.mp hlength
    rw [flatten_singleton, ← map_singleton]
    exact map_aggs_eq h
  · rw [if_neg (by simpa using hone), or_iff_right hone]
    have hwhole : measure cols parts.flatten = combinedCells cols rows := by
      rw [combinedCells, map_aggs_eq h, measure_pieces hparts]
    rw [hwhole, combinedCells_eq, ← mapM_eq_ok_iff]
    cases cols.zipIdx.mapM fun entry => scalarCell entry.1 (rows.map (cellAt entry.2)) with
    | error e => exact iff_of_false (by rintro ⟨⟩) (by rintro ⟨⟩)
    | ok cells =>
      change Except.ok [cells] = _ ↔ _
      simp

def countRow (x y : Bytes) : PartialRow := ⟨[some (.bytes x), some (.bytes y)], [some 1]⟩

theorem continued_text_confused (cidrOrderKey : Bytes → Bytes) (procs : Nat) {x y : Bytes}
    (h : Continues (.bytes x) (.bytes y)) : ∃ b, ¬ GroupedRight cidrOrderKey [.bytes, .bytes] [⟨.count, false⟩]
      [countRow x b, countRow y []] procs
      [[⟨(countRow x b).keys, [some 1]⟩], [⟨(countRow y []).keys, [some 1]⟩]] := by
  obtain ⟨z, rfl⟩ := h
  refine ⟨z ++ [0], fun hright => ?_⟩
  have hparts : Partials cidrOrderKey [⟨.count, false⟩]
      [[⟨(countRow x (z ++ [0])).keys, [some 1]⟩], [⟨(countRow (x ++ 0 :: z) []).keys, [some 1]⟩]]
      [[countRow x (z ++ [0])], [countRow (x ++ 0 :: z) []]] :=
    .cons (List.Perm.of_eq (by simp [sqlAggregate, rollup, groups, distinctBy, eqKey, shown, countRow]; rfl))
      (.cons (List.Perm.of_eq (by simp [sqlAggregate, rollup, groups, distinctBy, eqKey, shown, countRow]; rfl)) .nil)
  have hkey := ((groupedRight_iff (by decide) hparts).mp hright).1 (countRow x (z ++ [0])) (by simp)
    (countRow (x ++ 0 :: z) []) (by simp) (by simp [rowKey, countRow, appendKey])
  simp [keyOf, countRow, identity] at hkey

theorem partialMerge_correct (cidrOrderKey : Bytes → Bytes) (procs : Nat) :
    (∀ (types : List KeyType) (cols : List AggCol) (parts : List (List InputRow)) (batches : List (List PartialRow)),
      List.Forall₂ (fun part batch => (batch.map (shown cidrOrderKey)).Perm (sqlAggregate cidrOrderKey cols part))
        parts batches → (∀ row ∈ batches.flatten, Fits types cols row) →
      (cols ≠ [] → NullsApart cidrOrderKey types batches.flatten → TextsApart cidrOrderKey types batches.flatten →
        GroupsKept cidrOrderKey cols batches.flatten → GroupsUnrounded cidrOrderKey cols batches.flatten →
          GroupedRight cidrOrderKey types cols batches.flatten procs parts) ∧
      (cols ≠ [] → GroupedRight cidrOrderKey types cols batches.flatten procs parts →
        NullsApart cidrOrderKey types batches.flatten ∧ GroupsKept cidrOrderKey cols batches.flatten) ∧
      (cols = [] → (GroupedRight cidrOrderKey types cols batches.flatten procs parts ↔
        (batches.flatten.map fun row => keyOf cidrOrderKey row.keys).Nodup))) ∧
    (∀ x y : Bytes, Continues (.bytes x) (.bytes y) →
      ∃ b, ¬ GroupedRight cidrOrderKey [.bytes, .bytes] [⟨.count, false⟩] [countRow x b, countRow y []] procs
        [[⟨(countRow x b).keys, [some 1]⟩], [⟨(countRow y []).keys, [some 1]⟩]]) ∧
    ∀ (cols : List AggCol) (parts : List (List InputRow)) (rows : List PartialRow), cols ≠ [] → parts ≠ [] →
      List.Forall₂ (fun part row => row.aggs = measure cols part) parts rows → (∀ row ∈ rows, Fits [] cols row) →
      ((rows.length ≤ 1 ∨ ∀ entry ∈ cols.zipIdx, entry.1.ScalarKept (rows.map (cellAt entry.2)) ∧
        (entry.1.isInt64Sum → Unrounded ((rows.map (cellAt entry.2)).filterMap id))) → ScalarRight cols rows parts) ∧
      (ScalarRight cols rows parts → rows.length ≤ 1 ∨
        ∀ entry ∈ cols.zipIdx, entry.1.ScalarKept (rows.map (cellAt entry.2))) := by
  refine ⟨fun types cols parts batches h hfits => ⟨fun hcols => groupedRight_of_kept hcols h hfits,
    fun hcols => kept_of_groupedRight hcols h hfits, ?_⟩, fun _ _ => continued_text_confused cidrOrderKey procs,
    fun cols parts rows hcols hparts h hfits => ?_⟩
  · rintro rfl
    exact reAggregatePartials_keys h
  · have hcells : ∀ entry ∈ cols.zipIdx, ∀ v, some v ∈ rows.map (cellAt entry.2) → entry.1.holds v := by
      intro entry hentry v hv
      obtain ⟨row, hrow, hcell⟩ := mem_map.mp hv
      exact (hfits row hrow).cells entry hentry v hcell
    rw [scalarRight_iff hcols hparts h]
    refine ⟨Or.imp_right fun hkept entry hentry => ?_, Or.imp_right fun hright entry hentry => ?_⟩
    · exact scalarCell_of_kept (hcells entry hentry) (hkept entry hentry).1 (hkept entry hentry).2
    · exact kept_of_scalarCell (hcells entry hentry) (hright entry hentry)

theorem partialMerge_correct_counts :
    GroupedRight id [.int] [⟨.count, false⟩] [⟨[some (.int 7)], [some 1]⟩, ⟨[some (.int 7)], [some 2]⟩] 4
      [[⟨[some (.int 7)], [some 1]⟩], [⟨[some (.int 7)], [some 1]⟩, ⟨[some (.int 7)], [some 1]⟩]] ∧
    ScalarRight [⟨.max, false⟩] [⟨[], [some 5]⟩, ⟨[], [none]⟩] [[⟨[], [some 5]⟩], [⟨[], [none]⟩]] := by
  let row : InputRow := ⟨[some (.int 7)], [some 1]⟩
  let rows : List PartialRow := [⟨[some (.int 7)], [some 1]⟩, ⟨[some (.int 7)], [some 2]⟩]
  have hparts : Partials id [⟨.count, false⟩]
      [[row], [row, row]] [[⟨[some (.int 7)], [some 1]⟩], [⟨[some (.int 7)], [some 2]⟩]] :=
    .cons (List.Perm.of_eq (by decide)) (.cons (List.Perm.of_eq (by decide)) .nil)
  have hcells : ∀ first ∈ rows, cellsOf id rows first 0 = [some 1, some 2] := by decide
  have hslots : ∀ first ∈ rows, slots id [.int] first.keys = [.int 7] := by decide
  obtain ⟨hgrouped, -, hscalar⟩ := partialMerge_correct id 4
  refine ⟨(hgrouped [.int] [⟨.count, false⟩] _ _ hparts ?_).1 (by decide) (by unfold NullsApart; decide) ?_ ?_ ?_,
    (hscalar [⟨.max, false⟩] _ _ (by decide) (by decide) (.cons rfl (.cons rfl .nil)) ?_).1 (.inr ?_)⟩
  · have hkeys : Typed [.int] [some (.int 7)] := .cons (by decide) .nil
    intro first hfirst
    obtain rfl | rfl : first = ⟨[some (.int 7)], [some 1]⟩ ∨ first = ⟨[some (.int 7)], [some 2]⟩ := by
      simpa using hfirst
    · exact ⟨hkeys, by decide⟩
    · exact ⟨hkeys, by decide⟩
  · intro first hfirst other hother
    rw [hslots first hfirst, hslots other hother]
    simp [Told]
  · intro first hfirst entry hentry
    obtain rfl : entry = (⟨.count, false⟩, 0) := by simpa using hentry
    change AggCol.Kept _ (cellsOf id rows first 0)
    rw [hcells first hfirst]
    exact ⟨3, rfl, rfl⟩
  · intro first hfirst entry hentry _
    obtain rfl : entry = (⟨.count, false⟩, 0) := by simpa using hentry
    change Unrounded ((cellsOf id rows first 0).map (·.getD 0))
    rw [hcells first hfirst]
    exact unrounded_of_small (by decide)
  · intro first hfirst
    obtain rfl | rfl : first = ⟨[], [some 5]⟩ ∨ first = ⟨[], [none]⟩ := by simpa using hfirst
    · exact ⟨.nil, by decide⟩
    · exact ⟨.nil, by decide⟩
  · intro entry hentry
    obtain rfl : entry = (⟨.max, false⟩, 0) := by simpa using hentry
    exact ⟨trivial, by simp [AggCol.isInt64Sum]⟩

-- A NULL and a zero share the bytes of their key.
theorem reAggregatePartials_confuses_null :
    List.Forall₂ (fun part batch => (batch.map (shown id)).Perm (sqlAggregate id [⟨.count, false⟩] part))
        [[⟨[none], [some 1]⟩], [⟨[some (.int 0)], [some 1]⟩]]
        [[⟨[none], [some 1]⟩], [⟨[some (.int 0)], [some 1]⟩]] ∧
      reAggregatePartials id [.int] [⟨.count, false⟩] 1 [⟨[none], [some 1]⟩, ⟨[some (.int 0)], [some 1]⟩] =
        [⟨[none], [some 2]⟩] ∧
      sqlAggregate id [⟨.count, false⟩] [⟨[none], [some 1]⟩, ⟨[some (.int 0)], [some 1]⟩] =
        [([none], [some 1]), ([some (.int 0)], [some 1])] := by
  refine ⟨.cons ?_ (.cons ?_ .nil), by decide +kernel, by decide⟩
  · exact List.Perm.of_eq (by decide)
  · exact List.Perm.of_eq (by decide)

end Wadjet.Coordinator.PartialMerge
