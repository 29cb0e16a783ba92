import Wadjet.Data.Grouping

-- Aggregation by key, and the aggregation of partial aggregates.
namespace Wadjet.Data

open List

variable {α κ β : Type} [DecidableEq κ]

def rollup (key : α → κ) (measure : List α → β) (rows : List α) : List (κ × β) :=
  (groups eqKey key rows).map fun group => (group.1, measure group.2)

def regroup (combine : List β → β) (entries : List (κ × β)) : List (κ × β) :=
  rollup Prod.fst (fun group => combine (group.map Prod.snd)) entries

-- What a measure and the combination of its values have to satisfy: the value
-- of nonempty rows can be found from any cut of them into nonempty pieces.
structure Combines (measure : List α → β) (combine : List β → β) : Prop where
  perm : ∀ rows rows' : List α, rows.Perm rows' → measure rows = measure rows'
  pieces : ∀ pieces : List (List α), pieces ≠ [] → (∀ piece ∈ pieces, piece ≠ []) →
    combine (pieces.map measure) = measure pieces.flatten

variable {key : α → κ} {measure : List α → β} {combine : List β → β} (rows : List α)

theorem map_fst_rollup :
    (rollup key measure rows).map Prod.fst = distinctBy eqKey (rows.map key) := by
  simp [rollup, groups, Function.comp_def]

theorem mem_map_fst_rollup (k : κ) :
    k ∈ (rollup key measure rows).map Prod.fst ↔ k ∈ rows.map key := by
  rw [map_fst_rollup, mem_distinctBy]

theorem rollup_eq_map : rollup key measure rows = (distinctBy eqKey (rows.map key)).map fun k =>
      (k, measure (rows.filter fun row => eqKey k (key row))) := by
  simp [rollup, groups]

theorem groups_map_congr {γ : Type} (make : κ → List α → γ)
    (hmake : ∀ k (rows rows' : List α), rows.Perm rows' → make k rows = make k rows') {rows rows' : List α}
    (hperm : rows.Perm rows') :
    ((groups eqKey key rows).map fun group => make group.1 group.2).Perm
      ((groups eqKey key rows').map fun group => make group.1 group.2) := by
  have hmade : ∀ k, make k (rows.filter fun row => eqKey k (key row)) =
      make k (rows'.filter fun row => eqKey k (key row)) := fun k => hmake k _ _ (hperm.filter _)
  simp only [groups, map_map, Function.comp_def, hmade]
  exact (distinctBy_perm fun k => (hperm.map key).mem_iff).map _

theorem rollup_congr {rows rows' : List α} (hperm : rows.Perm rows')
    (hmeasure : ∀ rows rows' : List α, rows.Perm rows' → measure rows = measure rows') :
    (rollup key measure rows).Perm (rollup key measure rows') :=
  groups_map_congr (fun k group => (k, measure group)) (fun k rows rows' h => by rw [hmeasure rows rows' h]) hperm

theorem groups_map {γ : Type} (build : γ → α) (key' : γ → κ) (rows : List γ)
    (hkey : ∀ row ∈ rows, key (build row) = key' row) :
    groups eqKey key (rows.map build) = (groups eqKey key' rows).map fun group => (group.1, group.2.map build) := by
  have hkeys : (rows.map build).map key = rows.map key' := by
    rw [map_map]
    exact map_congr_left hkey
  simp only [groups, hkeys, map_map, filter_map, Function.comp_def]
  refine map_congr_left fun k _ => ?_
  rw [filter_congr fun row hrow => by rw [hkey row hrow]]

private theorem selects_eqKey (k : κ) (ks : List κ) : Selects eqKey (eqKey k) ks where
  single := by
    intro a _ b _ ha hb
    simp only [eqKey, decide_eq_true_eq] at ha hb ⊢
    exact ha.symm.trans hb
  closed := by
    intro a _ b _ ha hab
    simp only [eqKey, decide_eq_true_eq] at ha hab ⊢
    exact ha.trans hab

private theorem filter_rollup (k : κ) :
    ((rollup key measure rows).filter fun entry => eqKey k entry.1).map Prod.snd =
      ([rows.filter fun row => eqKey k (key row)].filter fun piece => !piece.isEmpty).map measure := by
  have hfilter : (rollup key measure rows).filter (fun entry => eqKey k entry.1) =
      ((groups eqKey key rows).filter fun group => eqKey k group.1).map fun group =>
        (group.1, measure group.2) := by
    rw [rollup, filter_map]
    rfl
  rcases Selects.filter_groups key rows (selects_eqKey k _) with ⟨hnone, hgroups⟩ | ⟨hsome, k', hgroups⟩
  · rw [hfilter, hgroups, hnone]
    rfl
  · rw [hfilter, hgroups]
    simp [hsome]

private theorem filter_flatMap_rollup (parts : List (List α)) (k : κ) :
    ((parts.flatMap (rollup key measure)).filter fun entry => eqKey k entry.1).map Prod.snd =
      ((parts.map (filter fun row => eqKey k (key row))).filter fun piece => !piece.isEmpty).map
        measure := by
  induction parts with
  | nil => rfl
  | cons part rest ih =>
    rw [flatMap_cons, filter_append, map_append, ih, filter_rollup, ← map_append,
      ← filter_append]
    rfl

-- Aggregating the aggregates of parts is aggregating once.
theorem regroup_rollup (h : Combines measure combine) (parts : List (List α)) :
    (regroup combine (parts.flatMap (rollup key measure))).Perm (rollup key measure parts.flatten) := by
  have hkeys : ∀ k, k ∈ (parts.flatMap (rollup key measure)).map Prod.fst ↔ k ∈ parts.flatten.map key := by
    intro k
    rw [map_flatMap, mem_flatMap, map_flatten, mem_flatten]
    simp [mem_map_fst_rollup, mem_map (f := map key)]
  have hvalue : ∀ k ∈ distinctBy eqKey (parts.flatten.map key),
      combine (((parts.flatMap (rollup key measure)).filter fun entry => eqKey k entry.1).map Prod.snd) =
        measure (parts.flatten.filter fun row => eqKey k (key row)) := by
    intro k hk
    rw [filter_flatMap_rollup, h.pieces _ ?_ fun piece hpiece => ?_, flatten_filter_not_isEmpty,
      filter_flatten]
    · obtain ⟨row, hrow, hkey⟩ := mem_map.mp ((mem_distinctBy _ k).mp hk)
      obtain ⟨part, hpart, hrow⟩ := mem_flatten.mp hrow
      have hmem : row ∈ part.filter fun row => eqKey k (key row) :=
        mem_filter.mpr ⟨hrow, by simp [eqKey, hkey]⟩
      exact ne_nil_of_mem (mem_filter.mpr
        ⟨mem_map_of_mem hpart, by simpa using ne_nil_of_mem hmem⟩)
    · simpa using (mem_filter.mp hpiece).2
  rw [regroup, rollup_eq_map, rollup_eq_map]
  refine ((distinctBy_perm hkeys).map _).trans (List.Perm.of_eq ?_)
  refine map_congr_left fun k hk => ?_
  rw [hvalue k hk]

end Wadjet.Data
