import Mathlib.Data.List.Perm.Subperm
import Wadjet.Data.Grouping

-- Grouping by a code of the key instead of the key.
namespace Wadjet.Data

open List

variable {α κ ε γ : Type} [DecidableEq κ] [DecidableEq ε] {rows : List α} {key : α → κ} {code : α → ε}

def representatives (key : α → κ) (rows : List α) : List α := distinctBy (fun a b => eqKey (key a) (key b)) rows

theorem distinctBy_map (key : α → κ) (rows : List α) :
    distinctBy eqKey (rows.map key) = (representatives key rows).map key := by
  unfold representatives
  induction rows with
  | nil => rfl
  | cons row rest ih =>
    rw [map_cons, distinctBy, distinctBy, ih]
    by_cases h : (distinctBy (fun a b => eqKey (key a) (key b)) rest).any fun other =>
        eqKey (key row) (key other)
    · rw [if_pos h, if_pos (by simpa [Function.comp_def] using h)]
    · rw [if_neg h, if_neg (by simpa [Function.comp_def] using h), map_cons]

theorem mem_of_mem_representatives {row : α} (h : row ∈ representatives key rows) : row ∈ rows :=
  mem_of_mem_distinctBy _ rows row h

theorem exists_representative (key : α → κ) {row : α} (h : row ∈ rows) :
    ∃ other ∈ representatives key rows, key other = key row := by
  have hkey : key row ∈ distinctBy eqKey (rows.map key) := (mem_distinctBy _ _).mpr (mem_map_of_mem h)
  rw [distinctBy_map] at hkey
  exact mem_map.mp hkey

theorem groups_eq_map (key : α → κ) (rows : List α) :
    groups eqKey key rows = (representatives key rows).map fun row =>
      (key row, rows.filter fun other => eqKey (key row) (key other)) := by
  rw [groups, distinctBy_map, map_map]
  rfl

theorem representatives_congr
    (h : ∀ row ∈ rows, ∀ other ∈ rows, (code row = code other ↔ key row = key other)) :
    representatives code rows = representatives key rows := by
  unfold representatives
  induction rows with
  | nil => rfl
  | cons row rest ih =>
    have hrest := ih fun a ha b hb => h a (mem_cons_of_mem _ ha) b (mem_cons_of_mem _ hb)
    rw [distinctBy, distinctBy, hrest]
    have hany : (distinctBy (fun a b => eqKey (key a) (key b)) rest).any (fun other =>
        eqKey (code row) (code other)) =
        (distinctBy (fun a b => eqKey (key a) (key b)) rest).any fun other => eqKey (key row) (key other) := by
      rw [Bool.eq_iff_iff, any_eq_true, any_eq_true]
      refine exists_congr fun other => and_congr_right fun hother => ?_
      simp only [eqKey, decide_eq_true_eq]
      exact h row mem_cons_self other (mem_cons_of_mem _ (mem_of_mem_distinctBy _ _ _ hother))
    rw [hany]

theorem code_inj_of_length (hcode : ∀ row ∈ rows, ∀ other ∈ rows, key row = key other → code row = code other)
    (hlength : (groups eqKey code rows).length = (groups eqKey key rows).length) :
    ∀ row ∈ rows, ∀ other ∈ rows, code row = code other → key row = key other := by
  have hkeys : (representatives key rows).length = (representatives code rows).length := by
    rw [groups_eq_map, groups_eq_map, length_map, length_map] at hlength
    exact hlength.symm
  have hcodes : ((representatives code rows).map code).Nodup := distinctBy_map code rows ▸ distinctBy_nodup _
  -- The codes of one row for each key are all the codes there are.
  have hsub : ((representatives code rows).map code).Subperm ((representatives key rows).map code) := by
    refine subperm_of_subset hcodes fun e he => ?_
    obtain ⟨row, hrow, rfl⟩ := mem_map.mp he
    have hmem := mem_of_mem_representatives hrow
    obtain ⟨other, hother, hsame⟩ := exists_representative key hmem
    exact mem_map.mpr ⟨other, hother, hcode other (mem_of_mem_representatives hother) row hmem hsame⟩
  have hperm := hsub.perm_of_length_le (by simp [hkeys])
  have hinj := inj_on_of_nodup_map (hperm.nodup_iff.mp hcodes)
  intro row hrow other hother hsame
  obtain ⟨first, hfirst, hfirstKey⟩ := exists_representative key hrow
  obtain ⟨second, hsecond, hsecondKey⟩ := exists_representative key hother
  have hfirstCode := hcode first (mem_of_mem_representatives hfirst) row hrow hfirstKey
  have hsecondCode := hcode second (mem_of_mem_representatives hsecond) other hother hsecondKey
  have := hinj hfirst hsecond (hfirstCode.trans (hsame.trans hsecondCode.symm))
  rw [← hfirstKey, this, hsecondKey]

-- Groups by the code, under the key of their first row, are the groups by the
-- key exactly when codes tell keys apart and each group is measured alike.
theorem map_groups_perm_iff (hcode : ∀ row ∈ rows, ∀ other ∈ rows, key row = key other → code row = code other)
    {shown : List α → κ} (hshown : ∀ row rest, shown (row :: rest) = key row) {made expected : List α → γ} :
    ((groups eqKey code rows).map fun group => (shown group.2, made group.2)).Perm
        ((groups eqKey key rows).map fun group => (group.1, expected group.2)) ↔
      (∀ row ∈ rows, ∀ other ∈ rows, code row = code other → key row = key other) ∧
        ∀ row ∈ rows, made (rows.filter fun other => eqKey (key row) (key other)) =
          expected (rows.filter fun other => eqKey (key row) (key other)) := by
  have hgroups : (∀ row ∈ rows, ∀ other ∈ rows, code row = code other → key row = key other) →
      ((groups eqKey code rows).map fun group => (shown group.2, made group.2)) =
        (representatives key rows).map fun row =>
          (key row, made (rows.filter fun other => eqKey (key row) (key other))) := by
    intro hapart
    have hsame : ∀ row ∈ rows, ∀ other ∈ rows, (code row = code other ↔ key row = key other) :=
      fun row hrow other hother => ⟨hapart row hrow other hother, hcode row hrow other hother⟩
    rw [groups_eq_map, representatives_congr hsame, map_map]
    refine map_congr_left fun row hrow => ?_
    have hmem := mem_of_mem_representatives hrow
    have hfilter : rows.filter (fun other => eqKey (code row) (code other)) =
        rows.filter fun other => eqKey (key row) (key other) :=
      filter_congr fun other hother => decide_eq_decide.mpr (hsame row hmem other hother)
    have hkey : shown (rows.filter fun other => eqKey (key row) (key other)) = key row := by
      cases hgroup : rows.filter fun other => eqKey (key row) (key other) with
      | nil =>
        have := filter_eq_nil_iff.mp hgroup row hmem
        simp [eqKey] at this
      | cons first rest =>
        have hfirst : first ∈ rows.filter fun other => eqKey (key row) (key other) := hgroup ▸ mem_cons_self
        rw [hshown]
        exact (of_decide_eq_true (mem_filter.mp hfirst).2).symm
    simp [hfilter, hkey]
  constructor
  · intro hperm
    have hlength := hperm.length_eq
    rw [length_map, length_map] at hlength
    have hapart := code_inj_of_length hcode hlength
    refine ⟨hapart, fun row hrow => ?_⟩
    obtain ⟨first, hfirst, hsame⟩ := exists_representative key hrow
    rw [hgroups hapart, groups_eq_map, map_map] at hperm
    obtain ⟨other, -, hother⟩ := mem_map.mp (hperm.mem_iff.mp (mem_map_of_mem hfirst))
    simp only [Function.comp_apply, Prod.mk.injEq] at hother
    rw [← hsame, ← hother.2, hother.1]
  · rintro ⟨hapart, hmade⟩
    rw [hgroups hapart, groups_eq_map, map_map]
    refine List.Perm.of_eq (map_congr_left fun row hrow => ?_)
    simp [hmade row (mem_of_mem_representatives hrow)]

end Wadjet.Data
