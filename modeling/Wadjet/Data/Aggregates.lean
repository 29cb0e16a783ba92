import Mathlib.Algebra.BigOperators.Group.List.Basic
import Mathlib.Algebra.Ring.Int.Defs
import Mathlib.Data.List.MinMax

-- The four aggregates whose values over parts give the value over the whole.
namespace Wadjet.Data

open List

section Extremes

section

variable {pick : List Int → Option Int} {le : Int → Int → Prop} (hnone : ∀ {l}, pick l = none ↔ l = [])
  (hsome : ∀ {l m}, pick l = some m ↔ m ∈ l ∧ ∀ b ∈ l, le m b)

include hnone hsome

theorem extreme_congr {vs ws : List Int} (h : ∀ v, v ∈ vs ↔ v ∈ ws) : pick vs = pick ws := by
  cases hv : pick vs with
  | none =>
    rw [hnone] at hv
    symm
    rw [hnone, eq_nil_iff_forall_not_mem]
    intro w hw
    simpa [hv] using (h w).mpr hw
  | some m =>
    rw [hsome] at hv
    symm
    rw [hsome]
    exact ⟨(h m).mp hv.1, fun b hb => hv.2 b ((h b).mpr hb)⟩

theorem extreme_flatMap {α : Type} (gs : List (List α)) (f : List α → List Int) :
    pick (gs.filterMap fun g => pick (f g)) = pick (gs.flatMap f) := by
  cases hv : pick (gs.flatMap f) with
  | none =>
    rw [hnone, flatMap_eq_nil_iff] at hv
    rw [hnone, filterMap_eq_nil_iff]
    exact fun g hg => hnone.mpr (hv g hg)
  | some m =>
    rw [hsome] at hv ⊢
    obtain ⟨hm, hle⟩ := hv
    constructor
    · obtain ⟨g, hg, hmg⟩ := mem_flatMap.mp hm
      refine mem_filterMap.mpr ⟨g, hg, hsome.mpr ⟨hmg, fun b hb => ?_⟩⟩
      exact hle b (mem_flatMap.mpr ⟨g, hg, hb⟩)
    · intro b hb
      obtain ⟨g, hg, hpick⟩ := mem_filterMap.mp hb
      exact hle b (mem_flatMap.mpr ⟨g, hg, (hsome.mp hpick).1⟩)

end

variable {vs ws : List Int}

theorem min?_congr (h : ∀ v, v ∈ vs ↔ v ∈ ws) : vs.min? = ws.min? :=
  extreme_congr min?_eq_none_iff min?_eq_some_iff h

theorem min?_perm (h : vs.Perm ws) : vs.min? = ws.min? :=
  min?_congr fun _ => h.mem_iff

theorem max?_congr (h : ∀ v, v ∈ vs ↔ v ∈ ws) : vs.max? = ws.max? :=
  extreme_congr max?_eq_none_iff max?_eq_some_iff h

theorem max?_perm (h : vs.Perm ws) : vs.max? = ws.max? :=
  max?_congr fun _ => h.mem_iff

variable {α : Type}

theorem min?_flatMap (gs : List (List α)) (f : List α → List Int) :
    (gs.filterMap fun g => (f g).min?).min? = (gs.flatMap f).min? :=
  extreme_flatMap min?_eq_none_iff min?_eq_some_iff gs f

theorem max?_flatMap (gs : List (List α)) (f : List α → List Int) :
    (gs.filterMap fun g => (f g).max?).max? = (gs.flatMap f).max? :=
  extreme_flatMap max?_eq_none_iff max?_eq_some_iff gs f

end Extremes

inductive AggFunc where
  | count
  | sum
  | min
  | max
  deriving DecidableEq

namespace AggFunc

variable (func : AggFunc)

-- Over the values that are present: of none of them, COUNT is 0 and the others
-- are absent.
def value (values : List Int) : Option Int :=
  match func with
  | count => some values.length
  | sum => if values.isEmpty then none else some values.sum
  | min => values.min?
  | max => values.max?

def combine (cells : List (Option Int)) : Option Int :=
  match func with
  | count | sum => AggFunc.sum.value (cells.filterMap id)
  | min => AggFunc.min.value (cells.filterMap id)
  | max => AggFunc.max.value (cells.filterMap id)

theorem value_perm {values values' : List Int} (h : values.Perm values') :
    func.value values = func.value values' := by
  cases func with
  | count => rw [value, value, h.length_eq]
  | sum => rw [value, value, h.isEmpty_eq, h.sum_eq]
  | min => exact min?_perm h
  | max => exact max?_perm h

theorem combine_perm {cells cells' : List (Option Int)} (h : cells.Perm cells') :
    func.combine cells = func.combine cells' := by
  cases func <;> simp only [combine] <;> exact value_perm _ (h.filterMap id)

variable (parts : List (List Int))

private theorem sum_cells : ((parts.map AggFunc.sum.value).filterMap id).sum = parts.flatten.sum ∧
      ((parts.map AggFunc.sum.value).filterMap id).isEmpty = parts.flatten.isEmpty := by
  induction parts with
  | nil => exact ⟨rfl, rfl⟩
  | cons part rest ih =>
    cases part with
    | nil => exact ih
    | cons v vs =>
      refine ⟨?_, rfl⟩
      change ((v :: vs).sum :: (rest.map AggFunc.sum.value).filterMap id).sum = _
      rw [sum_cons, ih.1, flatten_cons, sum_append]

private theorem sum_lengths :
    (parts.map fun part => (part.length : Int)).sum = parts.flatten.length := by
  induction parts with
  | nil => rfl
  | cons part rest ih =>
    rw [map_cons, sum_cons, ih, flatten_cons, length_append, Int.natCast_add]

theorem combine_values (hne : parts ≠ []) :
    func.combine (parts.map func.value) = func.value parts.flatten := by
  cases func with
  | count =>
    have hcells : (parts.map AggFunc.count.value).filterMap id = parts.map fun part => (part.length : Int) := by
      simp [value, Function.comp_def]
    rw [combine, hcells, value, value, sum_lengths, if_neg (by simpa using hne)]
  | sum =>
    obtain ⟨hsum, hempty⟩ := sum_cells parts
    rw [combine, value, value, hsum, hempty]
  | min =>
    have h := min?_flatMap parts id
    rw [flatMap_id] at h
    rw [combine, value, value, ← h, filterMap_map]
    rfl
  | max =>
    have h := max?_flatMap parts id
    rw [flatMap_id] at h
    rw [combine, value, value, ← h, filterMap_map]
    rfl

end AggFunc

def combineValues (funcs : List AggFunc) (values : List (List (Option Int))) : List (Option Int) :=
  funcs.zipIdx.map fun entry => entry.1.combine (values.map fun cells => cells.getD entry.2 none)

theorem combineValues_pieces {α γ : Type} {cols : List γ} {func : γ → AggFunc} {input : γ → List α → List Int}
    (hinput : ∀ c (pieces : List (List α)), input c pieces.flatten = (pieces.map (input c)).flatten)
    {pieces : List (List α)} (hne : pieces ≠ []) :
    combineValues (cols.map func) (pieces.map fun rows => cols.map fun c => (func c).value (input c rows)) =
      cols.map fun c => (func c).value (input c pieces.flatten) := by
  apply ext_getElem?
  intro j
  simp only [combineValues, getElem?_map, getElem?_zipIdx, Nat.zero_add, map_map,
    Function.comp_def]
  cases hcol : cols[j]? with
  | none => rfl
  | some c =>
    have hcells : (pieces.map fun rows => (cols.map fun c => (func c).value (input c rows)).getD j none) =
        (pieces.map (input c)).map (func c).value := by
      rw [map_map]
      simp [hcol]
    simp only [Option.map_some, hcells]
    rw [(func c).combine_values _ (by simpa using hne), hinput]

end Wadjet.Data
