import Mathlib.Data.List.Induction
import Wadjet.Data.Grouping

-- Grouping by one pass over the rows, with a table of the keys seen so far.
namespace Wadjet.Data

open List

variable {α κ σ : Type} [DecidableEq κ]

section Table

variable (next : Option σ → α → σ)

def insertGroup : List (κ × σ) → κ → α → List (κ × σ)
  | [], k, row => [(k, next none row)]
  | (k', s) :: rest, k, row =>
    if k' = k then (k', next (some s) row) :: rest else (k', s) :: insertGroup rest k row

def groupLoop (key : α → κ) (rows : List α) : List (κ × σ) :=
  rows.foldl (fun table row => insertGroup next table (key row) row) []

def foldGroup (rows : List α) : Option σ := rows.foldl (fun acc row => some (next acc row)) none

end Table

variable {next : Option σ → α → σ} {key : α → κ} (table : List (κ × σ))

theorem lookup_insertGroup (k k' : κ) (row : α) : (insertGroup next table k row).lookup k' =
      if k' = k then some (next (table.lookup k) row) else table.lookup k' := by
  induction table with
  | nil =>
    by_cases h : k' = k
    · simp [insertGroup, h]
    · simp [insertGroup, h]
  | cons entry rest ih =>
    obtain ⟨found, s⟩ := entry
    by_cases hfound : found = k
    · subst hfound
      by_cases h : k' = found
      · simp [insertGroup, h]
      · simp [insertGroup, lookup_cons, h, beq_eq_false_iff_ne.mpr h]
    · have hne : (k == found) = false := beq_eq_false_iff_ne.mpr fun h => hfound h.symm
      simp only [insertGroup, hfound, if_false, lookup_cons, ih]
      by_cases h : k' = k
      · simp [h, hne]
      · simp [h]

theorem map_fst_insertGroup (k : κ) (row : α) : (insertGroup next table k row).map Prod.fst =
      if k ∈ table.map Prod.fst then table.map Prod.fst else table.map Prod.fst ++ [k] := by
  induction table with
  | nil => rfl
  | cons entry rest ih =>
    obtain ⟨found, s⟩ := entry
    by_cases hfound : found = k
    · simp [insertGroup, hfound]
    have hmem : k ∈ found :: rest.map Prod.fst ↔ k ∈ rest.map Prod.fst := by
      simp [Ne.symm hfound]
    simp only [insertGroup, hfound, if_false, map_cons, ih]
    by_cases h : k ∈ rest.map Prod.fst
    · rw [if_pos h, if_pos (hmem.mpr h)]
    · rw [if_neg h, if_neg (fun hin => h (hmem.mp hin))]
      rfl

variable (rows : List α) (row : α)

theorem groupLoop_append :
    groupLoop next key (rows ++ [row]) = insertGroup next (groupLoop next key rows) (key row) row := by
  simp [groupLoop]

theorem foldGroup_append :
    foldGroup next (rows ++ [row]) = some (next (foldGroup next rows) row) := by
  simp [foldGroup]

theorem lookup_groupLoop (k : κ) :
    (groupLoop next key rows).lookup k = foldGroup next (rows.filter fun row => eqKey k (key row)) := by
  induction rows using reverseRecOn with
  | nil => rfl
  | append_singleton rows row ih =>
    rw [groupLoop_append, lookup_insertGroup]
    by_cases h : k = key row
    · subst h
      simp [eqKey, foldGroup_append, ih]
    · simp [eqKey, h, ih]

theorem mem_keys_groupLoop (k : κ) :
    k ∈ (groupLoop next key rows).map Prod.fst ↔ k ∈ rows.map key := by
  induction rows using reverseRecOn generalizing k with
  | nil => rfl
  | append_singleton rows row ih =>
    rw [groupLoop_append, map_fst_insertGroup]
    split
    · rename_i hin
      rw [ih, map_append, mem_append]
      refine ⟨Or.inl, fun h => h.elim id fun hlast => ?_⟩
      rw [mem_singleton.mp hlast]
      exact (ih (key row)).mp hin
    · rw [mem_append, ih, map_append, mem_append]
      rfl

theorem nodup_keys_groupLoop : ((groupLoop next key rows).map Prod.fst).Nodup := by
  induction rows using reverseRecOn with
  | nil => exact nodup_nil
  | append_singleton rows row ih =>
    rw [groupLoop_append, map_fst_insertGroup]
    split
    · exact ih
    · rename_i hnot
      rw [← concat_eq_append]
      exact ih.concat hnot

theorem map_lookup_of_nodup (h : (table.map Prod.fst).Nodup) :
    (table.map fun entry => (entry.1, some entry.2)) =
      (table.map Prod.fst).map fun k => (k, table.lookup k) := by
  induction table with
  | nil => rfl
  | cons entry rest ih =>
    obtain ⟨k, s⟩ := entry
    obtain ⟨hk, hrest⟩ := nodup_cons.mp h
    rw [map_cons, map_cons, map_cons, ih hrest]
    simp only [lookup_cons, beq_self_eq_true]
    congr 1
    refine map_congr_left fun k' hk' => ?_
    have hne : (k' == k) = false := beq_eq_false_iff_ne.mpr fun h => hk (h ▸ hk')
    rw [hne]

theorem groupLoop_perm :
    ((groupLoop next key rows).map fun entry => (entry.1, some entry.2)).Perm
      ((groups eqKey key rows).map fun group => (group.1, foldGroup next group.2)) := by
  have hloop : ((groupLoop next key rows).map fun entry => (entry.1, some entry.2)) =
      ((groupLoop next key rows).map Prod.fst).map fun k =>
        (k, foldGroup next (rows.filter fun row => eqKey k (key row))) := by
    rw [map_lookup_of_nodup _ (nodup_keys_groupLoop rows)]
    exact map_congr_left fun k _ => by rw [lookup_groupLoop]
  have hgroups : ((groups eqKey key rows).map fun group => (group.1, foldGroup next group.2)) =
      (distinctBy eqKey (rows.map key)).map fun k =>
        (k, foldGroup next (rows.filter fun row => eqKey k (key row))) := by
    rw [groups, map_map]
    rfl
  rw [hloop, hgroups]
  refine List.Perm.map _ ?_
  refine (perm_ext_iff_of_nodup (nodup_keys_groupLoop rows) (distinctBy_nodup (rows.map key))).mpr fun k => ?_
  rw [mem_keys_groupLoop, mem_distinctBy]

variable (owns : κ → Bool)

theorem filter_insertGroup (table : List (κ × σ)) (k : κ) (row : α) :
    (insertGroup next table k row).filter (fun entry => owns entry.1) =
      if owns k then insertGroup next (table.filter fun entry => owns entry.1) k row
      else table.filter fun entry => owns entry.1 := by
  induction table with
  | nil => by_cases h : owns k <;> simp [insertGroup, h]
  | cons entry rest ih =>
    obtain ⟨found, s⟩ := entry
    by_cases hfound : found = k
    · subst hfound
      by_cases h : owns found <;> simp [insertGroup, h]
    · simp only [insertGroup, hfound, if_false, filter_cons, ih]
      by_cases h : owns k <;> by_cases h' : owns found <;> simp [h, h', insertGroup, hfound]

theorem groupLoop_filter (rows : List α) :
    groupLoop next key (rows.filter fun row => owns (key row)) =
      (groupLoop next key rows).filter fun entry => owns entry.1 := by
  induction rows using reverseRecOn with
  | nil => rfl
  | append_singleton rows row ih =>
    rw [groupLoop_append, filter_insertGroup, ← ih]
    by_cases h : owns (key row)
    · simp [h, groupLoop_append]
    · simp [h]

-- Any number of passes over their own keys is one pass.
theorem groupLoop_shards (shard : κ → Nat) (n : Nat) (hn : ∀ k, shard k < n) (rows : List α) :
    ((range n).flatMap fun w => groupLoop next key (rows.filter fun row => shard (key row) == w)).Perm
      (groupLoop next key rows) := by
  have hpass : ∀ w, groupLoop next key (rows.filter fun row => shard (key row) == w) =
      (groupLoop next key rows).filter fun entry => eqKey w (shard entry.1) := by
    intro w
    rw [groupLoop_filter (fun k => shard k == w)]
    refine filter_congr fun entry _ => ?_
    exact decide_eq_decide.mpr eq_comm
  simp only [hpass]
  refine (flatMap_filter_perm (range n) nodup_range (fun entry : κ × σ => shard entry.1) _).trans
    (List.Perm.of_eq ?_)
  exact filter_eq_self.mpr fun entry _ => by simp [hn]

end Wadjet.Data
