import Mathlib.Tactic.Positivity
import Wadjet.Physical.JoinPruning.Model

namespace Wadjet.Physical.JoinPruning

open List Option

section Names

variable {row : Row} {name : String} {cell : Cell}

theorem resolveColumnIndex_of_columnIndex (h : row.columnIndex name = some cell) :
    resolveColumnIndex row name = some cell := by
  simp [resolveColumnIndex, h]

theorem columnIndexFallback_of_resolved (h : resolveColumnIndex row name = some cell) :
    columnIndexFallback row name = some cell := by
  simp [columnIndexFallback, h]

theorem columnIndexFallback_of_columnIndex (h : row.columnIndex name = some cell) :
    columnIndexFallback row name = some cell :=
  columnIndexFallback_of_resolved (resolveColumnIndex_of_columnIndex h)

end Names

theorem appendDecimalKey_congr (a b : Int) (sa sb : Nat) (h : a * 10 ^ sb = b * 10 ^ sa) :
    appendDecimalKey a sa = appendDecimalKey b sb :=
  congrArg Engine.Batch.canonicalKey (Engine.Batch.canonicalDecimal_eq_iff.mpr h)

section Pairs

variable {pair : KeyPair} {v w : Value}

theorem KeyPair.equal_cases (h : pair.equal v w) :
    (∃ a b, v = .int a ∧ w = .int b) ∨
      ∃ s, v = .str s ∧ w = .str s ∧ pair.probe.id = .string ∧ pair.build.id = .string := by
  cases v with
  | int a =>
    cases w with
    | int b => exact Or.inl ⟨a, b, rfl, rfl⟩
    | str s => simp [KeyPair.equal] at h
  | str s =>
    cases w with
    | int b => simp [KeyPair.equal] at h
    | str t =>
      simp only [KeyPair.equal, Bool.and_eq_true, decide_eq_true_eq] at h
      exact Or.inr ⟨s, rfl, by rw [h.2], h.1.1, h.1.2⟩

theorem equal_of_usesIntPath (hpath : HashJoin.usesIntPath pair) (h : pair.equal v w) :
    ∃ n, v = .int n ∧ w = .int n := by
  obtain ⟨left, ⟨probe, scale⟩, ⟨build, scale'⟩⟩ := pair
  rcases KeyPair.equal_cases h with ⟨a, b, rfl, rfl⟩ | ⟨s, rfl, rfl, hprobe, hbuild⟩
  · cases probe <;> cases build <;>
      simp_all [KeyPair.equal, KeyPair.common, joinKeyCommonType, joinKeyNumeric, VectorType.decimalScale,
        HashJoin.usesIntPath, joinKeyUsesIntPath, keyTypeAt, isIntKeyColumn]
  · subst hprobe hbuild
    simp [HashJoin.usesIntPath, joinKeyUsesIntPath,
      isIntKeyColumn] at hpath

theorem appendKeyValue_eq (h : pair.equal v w) :
    appendKeyValue pair.common pair.probe v = appendKeyValue pair.common pair.build w := by
  obtain ⟨left, ⟨probe, scale⟩, ⟨build, scale'⟩⟩ := pair
  rcases KeyPair.equal_cases h with ⟨a, b, rfl, rfl⟩ | ⟨s, rfl, rfl, hprobe, hbuild⟩
  · cases probe <;> cases build <;>
      simp_all [KeyPair.equal, KeyPair.common, joinKeyCommonType, joinKeyNumeric, VectorType.decimalScale,
        VectorType.millis, appendKeyValue, appendColumnValue, appendCoercedKeyValue, keyTypeAt,
        isIntKeyColumn]
    all_goals
      apply appendDecimalKey_congr
      simp_all
  · subst hprobe hbuild
    rfl

end Pairs

-- One key pair of a probe row and a build row: the probe's column has the type
-- the pair was planned with, and the cells are equal.
def KeyPair.Meets (row : Row) (pair : KeyPair) (cell : Option Value) : Prop :=
  ∃ column v w, columnIndexFallback row pair.left = some (column, some v) ∧
    column.type = pair.probe ∧ cell = some w ∧ pair.equal v w

def HashJoin.Matches (join : HashJoin) (row : Row) (key : List (Option Value)) : Prop :=
  List.Forall₂ (KeyPair.Meets row) join.keys key

section Hash

variable {row : Row} {cells : List Cell}

private theorem mapM_resolved_cons {pair : KeyPair} {rest : List KeyPair}
    (h : ((pair :: rest).map fun pair => resolveColumnIndex row pair.left).mapM id = some cells) :
    ∃ cell tail, cells = cell :: tail ∧ columnIndexFallback row pair.left = some cell ∧
      (rest.map fun pair => resolveColumnIndex row pair.left).mapM id = some tail := by
  simp only [map_cons, mapM_cons, Option.pure_def, bind_eq_bind,
    bind_eq_some_iff, some.injEq] at h
  obtain ⟨cell, hcell, tail, htail, hcells⟩ := h
  exact ⟨cell, tail, hcells.symm, columnIndexFallback_of_resolved hcell, htail⟩

private theorem meets_cell {pair : KeyPair} {key : Option Value} {cell : Cell}
    (hmeets : pair.Meets row key) (hcell : columnIndexFallback row pair.left = some cell) :
    ∃ v w, cell = (⟨cell.1.name, pair.probe⟩, some v) ∧ key = some w ∧ pair.equal v w := by
  obtain ⟨column, v, w, hcolumn, htype, hkey, hequal⟩ := hmeets
  rw [hcell, some.injEq] at hcolumn
  subst hcolumn
  exact ⟨v, w, by rw [← htype], hkey, hequal⟩

private theorem appendKey_eq {keys : List KeyPair} {key : List (Option Value)}
    (h : List.Forall₂ (KeyPair.Meets row) keys key)
    (hcells : (keys.map fun pair => resolveColumnIndex row pair.left).mapM id = some cells) :
    ∃ bytes,
      appendKey (((keys.map KeyPair.common).zip cells).map fun (resolved, column, v) =>
        (resolved, column.type, v)) = some bytes ∧
      appendKey ((keys.zip key).map fun (pair, v) => (pair.common, pair.build, v)) = some bytes := by
  induction h generalizing cells with
  | nil => exact ⟨[], by simp [appendKey], by simp [appendKey]⟩
  | @cons pair cell keys key hmeets _ ih =>
    obtain ⟨resolved, tail, rfl, hresolved, htail⟩ := mapM_resolved_cons hcells
    obtain ⟨v, w, hcell, rfl, hequal⟩ := meets_cell hmeets hresolved
    obtain ⟨bytes, hprobe, hbuild⟩ := ih htail
    refine ⟨0 :: appendKeyValue pair.common pair.probe v ++ bytes, ?_, ?_⟩
    · rw [hcell]
      simp [appendKey, hprobe]
    · simp [appendKey, hbuild, appendKeyValue_eq hequal]

variable {hashes : Hashes} {join : HashJoin} {key : List (Option Value)} {op : BloomFilterOp}

theorem bloomPushdownOp_eq_some (h : join.bloomPushdownOp hashes = some op) :
    op = ⟨Data.Bloom.ofHashes join.bloomMask (join.build.filterMap (join.buildKeyHash hashes)),
      join.keys.map KeyPair.left, join.useIntKey, join.useDualIntKey, join.keys.map KeyPair.common⟩ := by
  unfold HashJoin.bloomPushdownOp HashJoin.buildBloom at h
  split at h
  · cases h
  · rename_i bloom hbloom
    split at hbloom
    · cases hbloom
    · simp only [some.injEq] at hbloom
      split at h
      · cases h
      · split at h
        · simp only [some.injEq] at h
          rw [← h, ← hbloom]
        · cases h

theorem probeKeyHash_eq (hop : join.bloomPushdownOp hashes = some op) (h : join.Matches row key)
    (hcells : (op.keyColumns row).mapM id = some cells) :
    ∃ hash, op.probeKeyHash hashes cells = some hash ∧ join.buildKeyHash hashes key = some hash := by
  have hop := bloomPushdownOp_eq_some hop
  have hcells : (join.keys.map fun pair => resolveColumnIndex row pair.left).mapM id = some cells := by
    rw [hop] at hcells
    simpa [BloomFilterOp.keyColumns, Function.comp_def] using hcells
  unfold HashJoin.Matches at h
  by_cases hint : join.useIntKey
  · obtain ⟨pair, hkeys, hpath⟩ : ∃ pair, join.keys = [pair] ∧ HashJoin.usesIntPath pair := by
      unfold HashJoin.useIntKey at hint
      split at hint
      · exact ⟨_, ‹_›, hint⟩
      · cases hint
    rw [hkeys] at h hcells
    obtain ⟨resolved, tail, rfl, hresolved, htail⟩ := mapM_resolved_cons hcells
    cases h with
    | cons hmeets hnil =>
      cases hnil
      obtain ⟨v, w, hcell, rfl, hequal⟩ := meets_cell hmeets hresolved
      obtain ⟨n, rfl, rfl⟩ := equal_of_usesIntPath hpath hequal
      have htail : tail = [] := by simpa using htail.symm
      refine ⟨hashes.int n, ?_, ?_⟩
      · rw [hop, hcell, htail]
        simp [BloomFilterOp.probeKeyHash, hint]
      · simp [HashJoin.buildKeyHash, hint]
  · by_cases hdual : join.useDualIntKey
    · obtain ⟨first, second, hkeys, hpath, hpath'⟩ : ∃ first second, join.keys = [first, second] ∧
          HashJoin.usesIntPath first ∧ HashJoin.usesIntPath second := by
        unfold HashJoin.useDualIntKey at hdual
        split at hdual
        · exact ⟨_, _, ‹_›, Bool.and_eq_true_iff.mp hdual⟩
        · cases hdual
      rw [hkeys] at h hcells
      obtain ⟨resolved, tail, rfl, hresolved, htail⟩ := mapM_resolved_cons hcells
      obtain ⟨resolved', tail', rfl, hresolved', htail'⟩ := mapM_resolved_cons htail
      cases h with
      | cons hmeets hrest =>
        cases hrest with
        | cons hmeets' hnil =>
          cases hnil
          obtain ⟨v, w, hcell, rfl, hequal⟩ := meets_cell hmeets hresolved
          obtain ⟨v', w', hcell', rfl, hequal'⟩ := meets_cell hmeets' hresolved'
          obtain ⟨n, rfl, rfl⟩ := equal_of_usesIntPath hpath hequal
          obtain ⟨m, rfl, rfl⟩ := equal_of_usesIntPath hpath' hequal'
          have htail' : tail' = [] := by simpa using htail'.symm
          refine ⟨hashes.int (hashes.dual n m), ?_, ?_⟩
          · rw [hop, hcell, hcell', htail']
            simp [BloomFilterOp.probeKeyHash, hdual]
          · simp [HashJoin.buildKeyHash, hint, hdual]
    · obtain ⟨bytes, hprobe, hbuild⟩ := appendKey_eq h hcells
      refine ⟨hashes.bytes bytes, ?_, ?_⟩
      · rw [hop]
        simp [BloomFilterOp.probeKeyHash, hint, hdual, hprobe]
      · simp [HashJoin.buildKeyHash, hint, hdual, hbuild]

theorem mayMatch_of_matches (hop : join.bloomPushdownOp hashes = some op) (hkey : key ∈ join.build)
    (h : join.Matches row key) : op.mayMatch hashes row := by
  unfold BloomFilterOp.mayMatch
  split
  · rfl
  · rename_i cells hcells
    obtain ⟨hash, hprobe, hbuild⟩ := probeKeyHash_eq hop h hcells
    have hmem : hash ∈ join.build.filterMap (join.buildKeyHash hashes) :=
      mem_filterMap.mpr ⟨key, hkey, hbuild⟩
    rw [hprobe, bloomPushdownOp_eq_some hop]
    exact Data.Bloom.contains_ofHashes _ _ _ hmem

end Hash

variable {hashes : Hashes} {op : BloomFilterOp} {row : Row} (state : BloomFilterOp.State)

theorem mem_execute (rows : List Row) (h : op.mayMatch hashes row) (hrow : row ∈ rows) :
    row ∈ (op.execute hashes state rows).2 := by
  unfold BloomFilterOp.execute
  split
  · exact hrow
  · split
    · exact hrow
    · split
      · exact hrow
      · split
        · exact mem_filter.mpr ⟨hrow, h⟩
        · exact hrow

theorem mem_run (batches : List (List Row))
    (h : op.mayMatch hashes row) (hrow : row ∈ batches.flatten) :
    row ∈ op.run hashes state batches := by
  induction batches generalizing state with
  | nil => simp at hrow
  | cons rows rest ih =>
    rcases mem_append.mp (flatten_cons ▸ hrow) with hhead | htail
    · exact mem_append_left _ (mem_execute state rows h hhead)
    · exact mem_append_right _ (ih _ htail)

end Wadjet.Physical.JoinPruning
