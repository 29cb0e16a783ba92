import Wadjet.Coordinator.PartialMerge.Groups
import Wadjet.Data.Double

namespace Wadjet.Coordinator.PartialMerge

open Wadjet.Data Wadjet.Engine List

def AggCol.holds (col : AggCol) (v : Int) : Bool := if col.decimal then fitsInt128 v else fitsInt64 v

def AggCol.isInt64Sum (col : AggCol) : Bool := !col.decimal && (col.func == .count || col.func == .sum)

-- The values and their running totals are float64.
def Unrounded (values : List Int) : Prop :=
  (∀ v ∈ values, IsDouble v) ∧ ∀ start, start <+: values → IsDouble start.sum

-- Some partial is there, and the grouped merge can hold the aggregate of those that are: a
-- NULL counts as 0 and what is INT64 passes through a float64.
def AggCol.Kept (col : AggCol) (cells : List (Option Int)) : Prop :=
  ∃ v, col.func.combine cells = some v ∧
    match col.func with
    | .count | .sum => col.holds v
    | .min => (none ∈ cells → v ≤ 0) ∧ (col.decimal ∨ IsDouble v)
    | .max => (none ∈ cells → 0 ≤ v) ∧ (col.decimal ∨ IsDouble v)

variable {col : AggCol} {cells : List (Option Int)}

section Extremes

theorem load_none : col.load none = 0 := by
  unfold AggCol.load
  split_ifs <;> rfl

theorem load_of_double {v : Int} (h : col.decimal ∨ IsDouble v) : col.load (some v) = v := by
  unfold AggCol.load
  split_ifs with hdecimal
  · rfl
  · exact roundInt_of_isDouble (h.resolve_left hdecimal)

theorem le_load {m v : Int} (h : col.decimal ∨ IsDouble m) (hle : m ≤ v) : m ≤ col.load (some v) := by
  unfold AggCol.load
  split_ifs with hdecimal
  · exact hle
  · exact_mod_cast le_roundInt_of_le (h.resolve_left hdecimal) (by exact_mod_cast hle)

theorem load_le {m v : Int} (h : col.decimal ∨ IsDouble m) (hle : v ≤ m) : col.load (some v) ≤ m := by
  unfold AggCol.load
  split_ifs with hdecimal
  · exact hle
  · exact_mod_cast roundInt_le_of_le (h.resolve_left hdecimal) (by exact_mod_cast hle)

theorem store_of_holds {v : Int} (h : col.holds v) : col.store v = v := by
  unfold AggCol.holds at h
  unfold AggCol.store toInt64
  split_ifs at h ⊢ with hdecimal
  · rfl
  · rfl

theorem store_double {r : Int} (h : col.decimal ∨ IsDouble r) : col.decimal ∨ IsDouble (col.store r) := by
  refine h.imp_right fun hr => ?_
  unfold AggCol.store toInt64
  split_ifs
  · exact hr
  · exact hr
  · exact ⟨-1, 63, by decide, by decide, by decide, by norm_num⟩

theorem load_double {cell : Option Int} (h : ∀ v ∈ cell, col.holds v) : col.decimal ∨ IsDouble (col.load cell) := by
  by_cases hdecimal : col.decimal
  · exact .inl hdecimal
  · refine .inr ?_
    unfold AggCol.load
    rw [if_neg hdecimal]
    cases cell with
    | none => exact isDouble_roundInt (by decide)
    | some v =>
      have hv := h v rfl
      simp only [AggCol.holds, hdecimal, fitsInt64, Bool.false_eq_true, if_false, Bool.and_eq_true,
          decide_eq_true_eq] at hv
      exact isDouble_roundInt (by rw [Option.getD_some]; omega)

variable {pick : List Int → Option Int} {le : Int → Int → Prop}

theorem extreme_kept_iff (hsome : ∀ {l m}, pick l = some m ↔ m ∈ l ∧ ∀ b ∈ l, le m b)
    (hantisymm : ∀ {a b}, le a b → le b a → a = b)
    (hload : ∀ {m v : Int}, col.decimal ∨ IsDouble m → le m v → le m (col.load (some v)))
    (hfits : ∀ v, some v ∈ cells → col.holds v) (hfold : pick (cells.map col.load) = some (foldCells col cells)) :
    some (col.store (foldCells col cells)) = pick (cells.filterMap id) ↔
      ∃ m, pick (cells.filterMap id) = some m ∧ (none ∈ cells → le m 0) ∧ (col.decimal ∨ IsDouble m) := by
  obtain ⟨hmem, hleast⟩ := hsome.mp hfold
  obtain ⟨cell, hcell, hfirst⟩ := mem_map.mp hmem
  constructor
  · intro h
    have hdouble := store_double (hfirst ▸ load_double fun v hv => hfits v (hv ▸ hcell))
    obtain ⟨hpresent, hbest⟩ := hsome.mp h.symm
    refine ⟨_, h.symm, fun hnull => ?_, hdouble⟩
    have hzero := hleast 0 (mem_map.mpr ⟨none, hnull, load_none⟩)
    cases cell with
    | none =>
      rw [load_none] at hfirst
      rw [← hfirst] at hzero ⊢
      rwa [store_of_holds (by unfold AggCol.holds; split_ifs <;> decide)]
    | some v =>
      have hloaded := hleast _ (mem_map.mpr ⟨some _, by simpa using hpresent, load_of_double hdouble⟩)
      have hv := hload hdouble (hbest v (by simpa using hcell))
      rw [hfirst] at hv
      rwa [hantisymm hv hloaded]
  · rintro ⟨m, hm, hnull, hdouble⟩
    obtain ⟨hpresent, hbest⟩ := hsome.mp hm
    have hpick : pick (cells.map col.load) = some m := by
      refine hsome.mpr ⟨mem_map.mpr ⟨some m, by simpa using hpresent, load_of_double hdouble⟩, ?_⟩
      intro b hb
      obtain ⟨cell, hcell, rfl⟩ := mem_map.mp hb
      cases cell with
      | none => exact load_none ▸ hnull hcell
      | some v => exact hload hdouble (hbest v (by simpa using hcell))
    rw [hm, Option.some.inj (hfold.symm.trans hpick), store_of_holds (hfits m (by simpa using hpresent))]

theorem foldCells_min (hfunc : col.func = .min) (hne : cells ≠ []) :
    (cells.map col.load).min? = some (foldCells col cells) := by
  obtain ⟨cell, rest, rfl⟩ := exists_cons_of_ne_nil hne
  rw [map_cons, min?_cons', foldl_map, foldCells]
  congr 2
  funext cur cell
  simp only [AggCol.merge, hfunc]
  omega

theorem foldCells_max (hfunc : col.func = .max) (hne : cells ≠ []) :
    (cells.map col.load).max? = some (foldCells col cells) := by
  obtain ⟨cell, rest, rfl⟩ := exists_cons_of_ne_nil hne
  rw [map_cons, max?_cons', foldl_map, foldCells]
  congr 2
  funext cur cell
  simp only [AggCol.merge, hfunc]
  omega

end Extremes

section Totals

theorem sum_slots (cells : List (Option Int)) : (cells.map (·.getD 0)).sum = (cells.filterMap id).sum := by
  induction cells with
  | nil => rfl
  | cons cell rest ih => cases cell <;> simp [ih]

theorem combine_total (hfunc : col.func = .count ∨ col.func = .sum) (h : ∃ v, some v ∈ cells) :
    col.func.combine cells = some (cells.filterMap id).sum := by
  obtain ⟨v, hv⟩ := h
  have hne : (cells.filterMap id).isEmpty = false := by
    rw [isEmpty_eq_false_iff_exists_mem]
    exact ⟨v, by simpa using hv⟩
  rcases hfunc with hfunc | hfunc <;> rw [hfunc, AggFunc.combine, AggFunc.value, hne] <;> rfl

theorem wrapInt128_eq_iff {v : Int} : wrapInt128 v = v ↔ fitsInt128 v := by
  simp only [wrapInt128, fitsInt128, Bool.and_eq_true, decide_eq_true_eq]
  omega

theorem wrapped_total (start : Int) (values : List Int) (h : wrapInt128 start = start) :
    values.foldl (fun cur v => wrapInt128 (cur + v)) start = wrapInt128 (start + values.sum) := by
  induction values generalizing start with
  | nil => simp [h]
  | cons v rest ih =>
    rw [foldl_cons, ih _ (by unfold wrapInt128; omega), sum_cons]
    unfold wrapInt128
    omega

theorem floatTotal_of_unrounded {start : Int} {values : List Int} (h : ∀ v ∈ values, IsDouble v)
    (htotals : ∀ pre, pre <+: values → IsDouble (start + pre.sum : Int)) :
        floatTotal start values = start + values.sum := by
  induction values generalizing start with
  | nil => simp [floatTotal]
  | cons v rest ih =>
    have hstep : roundInt (start + roundInt v) = start + v := by
      rw [roundInt_of_isDouble (h v mem_cons_self)]
      exact roundInt_of_isDouble (by simpa using htotals [v] (by simp))
    rw [floatTotal, foldl_cons, hstep, sum_cons, ← Int.add_assoc]
    refine ih (fun w hw => h w (mem_cons_of_mem v hw)) fun pre hpre => ?_
    rw [Int.add_assoc, ← sum_cons]
    exact htotals (v :: pre) ((prefix_cons_inj v).mpr hpre)

theorem foldCells_decimal (hfunc : col.func = .count ∨ col.func = .sum) (hdecimal : col.decimal)
    (hfits : ∀ v, some v ∈ cells → col.holds v) (hne : cells ≠ []) :
    foldCells col cells = wrapInt128 (cells.filterMap id).sum := by
  obtain ⟨cell, rest, rfl⟩ := exists_cons_of_ne_nil hne
  have hload : ∀ cell, col.load cell = cell.getD 0 := fun _ => if_pos hdecimal
  have hmerge : col.merge = fun cur cell => wrapInt128 (cur + cell.getD 0) := by
    funext cur cell
    rcases hfunc with hfunc | hfunc <;> simp [AggCol.merge, hload, hfunc, hdecimal]
  have hfirst : wrapInt128 (cell.getD 0) = cell.getD 0 := by
    cases cell with
    | none => rfl
    | some v => simpa [wrapInt128_eq_iff, AggCol.holds, hdecimal] using hfits v mem_cons_self
  rw [foldCells, hmerge, hload, ← sum_slots, map_cons, sum_cons, ← wrapped_total _ _ hfirst, foldl_map]

theorem foldCells_float (hfunc : col.func = .count ∨ col.func = .sum) (hdecimal : ¬ col.decimal)
    (hround : Unrounded (cells.map (·.getD 0))) (hne : cells ≠ []) :
        foldCells col cells = (cells.filterMap id).sum := by
  obtain ⟨cell, rest, rfl⟩ := exists_cons_of_ne_nil hne
  have hload : ∀ cell, col.load cell = roundInt (cell.getD 0) := fun _ => if_neg hdecimal
  have hmerge : col.merge = fun cur cell => roundInt (cur + roundInt (cell.getD 0)) := by
    funext cur cell
    rcases hfunc with hfunc | hfunc <;> simp [AggCol.merge, hload, hfunc, hdecimal]
  obtain ⟨hvalues, htotals⟩ := hround
  rw [map_cons] at hvalues htotals
  have htotal := @floatTotal_of_unrounded (cell.getD 0) (rest.map (·.getD 0))
    (fun v hv => hvalues v (mem_cons_of_mem _ hv))
    fun pre hpre => by simpa using htotals (cell.getD 0 :: pre) ((prefix_cons_inj _).mpr hpre)
  rw [floatTotal, foldl_map] at htotal
  rw [foldCells, hmerge, hload, roundInt_of_isDouble (hvalues _ mem_cons_self), htotal, ← sum_slots,
      map_cons, sum_cons]

theorem isDouble_of_le {v : Int} (h : v.natAbs ≤ 2 ^ 53) : IsDouble v := by
  have hdouble : IsDouble (roundInt v : ℚ) := isDouble_roundInt (by omega)
  rwa [roundInt_of_le h] at hdouble

theorem unrounded_of_small {values : List Int} (h : (values.map Int.natAbs).sum ≤ 2 ^ 53) : Unrounded values := by
  have hsum : ∀ l : List Int, l.sum.natAbs ≤ (l.map Int.natAbs).sum := by
    intro l
    induction l with
    | nil => exact Nat.le_refl 0
    | cons v rest ih =>
      rw [sum_cons, map_cons, sum_cons]
      omega
  constructor
  · intro v hv
    exact isDouble_of_le (Nat.le_trans (single_le_sum (fun _ _ => Nat.zero_le _) _ (mem_map_of_mem hv)) h)
  · intro start hstart
    refine isDouble_of_le (Nat.le_trans (hsum start) (Nat.le_trans ?_ h))
    exact (hstart.sublist.map _).sum_le_sum fun _ _ => Nat.zero_le _

end Totals

section Grouped

theorem present_of_combine {func : AggFunc} {v : Int} (h : func.combine cells = some v) : ∃ w, some w ∈ cells := by
  by_contra hnone
  have hempty : cells.filterMap id = [] := by
    refine filterMap_eq_nil_iff.mpr fun cell hcell => ?_
    cases cell with
    | none => rfl
    | some w => exact absurd ⟨w, hcell⟩ hnone
  cases func <;> rw [AggFunc.combine, hempty] at h <;> cases h

variable (hfits : ∀ v, some v ∈ cells → col.holds v)

include hfits

theorem extreme_cell_iff (hne : cells ≠ []) (hfunc : col.func = .min ∨ col.func = .max) :
    some (col.store (foldCells col cells)) = col.func.combine cells ↔ col.Kept cells := by
  unfold AggCol.Kept
  rcases hfunc with hfunc | hfunc <;> simp only [hfunc, AggFunc.combine, AggFunc.value]
  · exact extreme_kept_iff min?_eq_some_iff Int.le_antisymm le_load hfits (foldCells_min hfunc hne)
  · exact extreme_kept_iff max?_eq_some_iff (fun h h' => Int.le_antisymm h' h) load_le hfits (foldCells_max hfunc hne)

theorem cell_of_kept (hkept : col.Kept cells) (hround : col.isInt64Sum → Unrounded (cells.map (·.getD 0))) :
    some (col.store (foldCells col cells)) = col.func.combine cells := by
  have hkept' := hkept
  obtain ⟨v, hv, hvalue⟩ := hkept'
  have hpresent := present_of_combine hv
  have hne : cells ≠ [] := ne_nil_of_mem hpresent.choose_spec
  by_cases hfunc : col.func = .min ∨ col.func = .max
  · exact (extreme_cell_iff hfits hne hfunc).mpr hkept
  have hfunc : col.func = .count ∨ col.func = .sum := by
    cases h : col.func <;> simp [h] at hfunc ⊢
  have htotal := combine_total hfunc hpresent
  obtain rfl : (cells.filterMap id).sum = v := Option.some.inj (htotal.symm.trans hv)
  have hholds : col.holds (cells.filterMap id).sum := by
    rcases hfunc with hfunc | hfunc <;> simpa only [hfunc] using hvalue
  have hfold : foldCells col cells = (cells.filterMap id).sum := by
    by_cases hdecimal : col.decimal
    · rw [foldCells_decimal hfunc hdecimal hfits hne, wrapInt128_eq_iff]
      simpa [AggCol.holds, hdecimal] using hholds
    · refine foldCells_float hfunc hdecimal (hround ?_) hne
      rcases hfunc with hfunc | hfunc <;> simp [AggCol.isInt64Sum, hdecimal, hfunc]
  rw [hfold, store_of_holds hholds, htotal]

theorem kept_of_cell (h : some (col.store (foldCells col cells)) = col.func.combine cells) : col.Kept cells := by
  have hne : cells ≠ [] := ne_nil_of_mem (present_of_combine h.symm).choose_spec
  by_cases hfunc : col.func = .min ∨ col.func = .max
  · exact (extreme_cell_iff hfits hne hfunc).mp h
  have hfunc : col.func = .count ∨ col.func = .sum := by
    cases h : col.func <;> simp [h] at hfunc ⊢
  refine ⟨_, h.symm, ?_⟩
  have hholds : col.holds (col.store (foldCells col cells)) := by
    unfold AggCol.holds AggCol.store
    split_ifs with hdecimal
    · rw [foldCells_decimal hfunc hdecimal hfits hne, ← wrapInt128_eq_iff]
      unfold wrapInt128
      omega
    · unfold toInt64
      split_ifs with hint
      · exact hint
      · decide
  rcases hfunc with hfunc | hfunc <;> simpa only [hfunc] using hholds

end Grouped

-- The ungrouped merge passes over NULLs, compares integers and checks its totals.
def AggCol.ScalarKept (col : AggCol) (cells : List (Option Int)) : Prop :=
  match col.func with
  | .count | .sum =>
    if col.decimal then ∀ start, start <+: cells.filterMap id → fitsInt128 start.sum
    else ∃ v, col.func.combine cells = some v ∧ fitsInt64 v
  | .min | .max => True

section Scalar

variable (values : List Int)

theorem extreme_lt : extreme (fun v best => v < best) values = values.min? := by
  cases values with
  | nil => rfl
  | cons v rest =>
    rw [extreme]
    congr 2
    funext best v
    by_cases h : v < best
    · rw [if_pos (by simpa using h), Int.min_eq_right (Int.le_of_lt h)]
    · rw [if_neg (by simpa using h), Int.min_eq_left (Int.not_lt.mp h)]

theorem extreme_gt : extreme (fun v best => best < v) values = values.max? := by
  cases values with
  | nil => rfl
  | cons v rest =>
    rw [extreme]
    congr 2
    funext best v
    by_cases h : best < v
    · rw [if_pos (by simpa using h), Int.max_eq_right (Int.le_of_lt h)]
    · rw [if_neg (by simpa using h), Int.max_eq_left (Int.not_lt.mp h)]

theorem mergeDecimalPartials_min : mergeDecimalPartials .min values = values.min? := by
  rw [← extreme_lt]
  cases values with
  | nil => rfl
  | cons v rest =>
    rw [extreme, ← Option.pure_def, ← foldlM_pure]
    simp only [decide_eq_true_eq]
    rfl

theorem mergeDecimalPartials_max : mergeDecimalPartials .max values = values.max? := by
  rw [← extreme_gt]
  cases values with
  | nil => rfl
  | cons v rest =>
    rw [extreme, ← Option.pure_def, ← foldlM_pure]
    simp only [decide_eq_true_eq]
    rfl

theorem checkedTotal_iff {start : Int} (hstart : fitsInt128 start) :
    values.foldlM (fun acc d => if fitsInt128 (acc + d) then some (acc + d) else none) start =
        some (start + values.sum) ↔
      ∀ pre, pre <+: values → fitsInt128 (start + pre.sum) := by
  induction values generalizing start with
  | nil => simp [hstart]
  | cons v rest ih =>
    rw [foldlM_cons]
    by_cases hfits : fitsInt128 (start + v)
    · rw [if_pos hfits, sum_cons, ← Int.add_assoc]
      refine (ih hfits).trans ⟨fun h pre hpre => ?_, fun h pre hpre => ?_⟩
      · obtain rfl | ⟨tail, rfl, htail⟩ := prefix_cons_iff.mp hpre
        · simpa using hstart
        · simpa [Int.add_assoc] using h tail htail
      · simpa [Int.add_assoc] using h (v :: pre) ((prefix_cons_inj v).mpr hpre)
    · rw [if_neg hfits]
      exact iff_of_false (fun h => nomatch h) fun h => hfits (by simpa using h [v] (by simp))

theorem mergeDecimalPartials_sum {func : AggFunc} (hfunc : func = .count ∨ func = .sum)
    (hfits : ∀ v ∈ values, fitsInt128 v) :
    mergeDecimalPartials func values = AggFunc.sum.value values ↔
      ∀ start, start <+: values → fitsInt128 start.sum := by
  cases values with
  | nil => simpa [mergeDecimalPartials, AggFunc.value] using (by decide : fitsInt128 0)
  | cons v rest =>
    have hmerge : mergeDecimalPartials func (v :: rest) =
        rest.foldlM (fun acc d => if fitsInt128 (acc + d) then some (acc + d) else none) v := by
      rcases hfunc with rfl | rfl <;> rfl
    have htotal : AggFunc.sum.value (v :: rest) = some (v + rest.sum) := by
      rw [AggFunc.value, sum_cons]
      rfl
    rw [hmerge, htotal, checkedTotal_iff rest (hfits v mem_cons_self)]
    refine ⟨fun h pre hpre => ?_, fun h pre hpre => ?_⟩
    · obtain rfl | ⟨tail, rfl, htail⟩ := prefix_cons_iff.mp hpre
      · decide
      · simpa using h tail htail
    · simpa using h (v :: pre) ((prefix_cons_inj v).mpr hpre)

variable (hfits : ∀ v, some v ∈ cells → col.holds v)

include hfits

theorem decimal_scalarCell_iff (hfunc : col.func = .count ∨ col.func = .sum) (hdecimal : col.decimal) :
    scalarCell col cells = .ok (col.func.combine cells) ↔ col.ScalarKept cells := by
  have hcell : scalarCell col cells = .ok (mergeDecimalPartials col.func (cells.filterMap id)) := if_pos hdecimal
  have hpresent : ∀ v ∈ cells.filterMap id, fitsInt128 v := fun v hv => by
    simpa [AggCol.holds, hdecimal] using hfits v (by simpa using hv)
  rw [hcell, Except.ok.injEq]
  have hsum := mergeDecimalPartials_sum _ hfunc hpresent
  rcases hfunc with hfunc | hfunc <;>
    simpa only [AggCol.ScalarKept, hfunc, AggFunc.combine, hdecimal, if_true] using hsum

omit hfits in
theorem extreme_scalarCell (hfunc : ¬ (col.func = .count ∨ col.func = .sum)) :
    scalarCell col cells = .ok (col.func.combine cells) := by
  cases h : col.func with
  | count | sum => simp [h] at hfunc
  | min =>
    simp only [scalarCell, h, mergeDecimalPartials_min, extreme_lt, ite_self]
    rfl
  | max =>
    simp only [scalarCell, h, mergeDecimalPartials_max, extreme_gt, ite_self]
    rfl

omit hfits in
theorem float_scalarCell (hfunc : col.func = .count ∨ col.func = .sum) (hdecimal : ¬ col.decimal) :
    scalarCell col cells = some <$> int64FromFloatOrRaise (floatTotal 0 (cells.filterMap id)) ∧
      (col.ScalarKept cells ↔ ∃ v, col.func.combine cells = some v ∧ fitsInt64 v) := by
  rcases hfunc with hfunc | hfunc <;>
    simp only [scalarCell, AggCol.ScalarKept, hfunc, hdecimal, Bool.false_eq_true, if_false, true_and, iff_self]

theorem scalarCell_of_kept (hkept : col.ScalarKept cells) (hround : col.isInt64Sum → Unrounded (cells.filterMap id)) :
    scalarCell col cells = .ok (col.func.combine cells) := by
  by_cases hfunc : col.func = .count ∨ col.func = .sum
  · by_cases hdecimal : col.decimal
    · exact (decimal_scalarCell_iff hfits hfunc hdecimal).mpr hkept
    · obtain ⟨hcell, hiff⟩ := @float_scalarCell col cells hfunc hdecimal
      obtain ⟨v, hv, hint⟩ := hiff.mp hkept
      have htotal := combine_total hfunc (present_of_combine hv)
      obtain rfl := Option.some.inj (htotal.symm.trans hv)
      obtain ⟨hvalues, htotals⟩ :=
          hround (by rcases hfunc with hfunc | hfunc <;> simp [AggCol.isInt64Sum, hdecimal, hfunc])
      have hfloat := @floatTotal_of_unrounded 0 _ hvalues (by simpa using htotals)
      rw [Int.zero_add] at hfloat
      rw [hcell, htotal, hfloat, int64FromFloatOrRaise, if_pos hint]
      rfl
  · exact extreme_scalarCell hfunc

theorem kept_of_scalarCell (h : scalarCell col cells = .ok (col.func.combine cells)) : col.ScalarKept cells := by
  by_cases hfunc : col.func = .count ∨ col.func = .sum
  · by_cases hdecimal : col.decimal
    · exact (decimal_scalarCell_iff hfits hfunc hdecimal).mp h
    · obtain ⟨hcell, hiff⟩ := @float_scalarCell col cells hfunc hdecimal
      rw [hcell, int64FromFloatOrRaise] at h
      split_ifs at h with hint
      · exact hiff.mpr ⟨_, (Except.ok.inj h).symm, hint⟩
      · cases h
  · cases h : col.func with
    | count | sum => simp [h] at hfunc
    | min | max => simp [AggCol.ScalarKept, h]

end Scalar

section Rows

variable (cols : List AggCol) (group : List PartialRow)

theorem combinedCells_eq :
    combinedCells cols group = cols.zipIdx.map fun entry => entry.1.func.combine (group.map (cellAt entry.2)) := by
  rw [combinedCells, combineValues, zipIdx_map, map_map]
  simp only [map_map]
  rfl


end Rows

end Wadjet.Coordinator.PartialMerge
