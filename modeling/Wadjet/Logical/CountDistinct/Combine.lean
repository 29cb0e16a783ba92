import Wadjet.Logical.CountDistinct.Levels

namespace Wadjet.Logical.CountDistinct

open Wadjet.Data Wadjet.Engine List

variable {type : Col → ColType} {n : Aggregate} {x : Col} {g : List Row} {gs : List (List Row)}

def reps (n : Aggregate) (x : Col) (type : Col → ColType) (gs : List (List Row)) : List Row :=
  gs.map (outRow (innerOf n x) type)

theorem nums_reps (c : Col) :
    nums (reps n x type gs) c = gs.filterMap fun p => (outRow (innerOf n x) type p c).bind Value.num? := by
  rw [nums, reps, filterMap_map]
  rfl

theorem sumBound_le (t : ColType) : sumBound t ≤ sumBound (sumType t) := by
  cases t <;> simp [sumBound, sumType]

section Equations

variable {a : AggExpr} {c : Col}

theorem evalAgg_sum (hf : a.func = .sum) (hin : a.input = some c) (g : List Row) :
    evalAgg type a g = sumOf (sumFits (type c)) (nums g c) := by
  simp only [evalAgg, hf, hin]

theorem evalAgg_min (hf : a.func = .min) (hin : a.input = some c) (g : List Row) :
    evalAgg type a g = some ((nums g c).min?.map .num) := by
  simp only [evalAgg, hf, hin]

theorem evalAgg_max (hf : a.func = .max) (hin : a.input = some c) (g : List Row) :
    evalAgg type a g = some ((nums g c).max?.map .num) := by
  simp only [evalAgg, hf, hin]

theorem evalAgg_avg (hf : a.func = .avg) (hin : a.input = some c) (g : List Row) :
    evalAgg type a g = avgOf (type c) (nums g c) := by
  simp only [evalAgg, hf, hin]

end Equations

section Aggregates

variable {a p : AggExpr} {i : Nat} (ha : (a, i) ∈ n.aggs.zipIdx) (hd : a.distinct = false)
  (hp : p ∈ partials i a) (h : Parts (· x) g gs) (out : Col)

include ha hd hp h

theorem evalAgg_sum_of_sums {c : Col} (hfunc : p.func = .sum) (hin : p.input = some c)
    (hbound : magnitude (nums g c) < sumBound (type c)) :
    evalAgg (outType (innerOf n x) type) { func := .sum, input := some p.output, output := out }
      (reps n x type gs) = some (total (nums g c)) := by
  have hpart : ∀ q ∈ gs, outRow (innerOf n x) type q p.output = total (nums q c) := by
    intro q hq
    have hle := magnitude_part_le h c hq
    rw [outRow_slot ha hd hp, evalAgg_sum hfunc hin, sumOf_eq (type c) (nums q c) (by omega)]
    rfl
  have hnums : nums (reps n x type gs) p.output = totals gs (nums · c) := by
    rw [nums_reps]
    exact filterMap_congr fun q hq => by rw [hpart q hq]
  have htype : outType (innerOf n x) type p.output = sumType (type c) := by
    rw [outType_slot type x ha hd hp, aggType, hfunc, hin]
  have hle := magnitude_totals_le gs (nums · c)
  rw [magnitude_perm (nums_perm h c)] at hle
  have hwide := sumBound_le (type c)
  rw [evalAgg_sum rfl rfl, hnums, htype, sumOf_eq _ _ (by omega), total_totals, total_perm (nums_perm h c)]

def counted (p : AggExpr) (g : List Row) : Nat :=
  match p.input with
  | none => g.length
  | some c => (present g c).length

omit ha hd hp in
theorem counted_parts (p : AggExpr) :
    (gs.map fun q => (counted p q : Int)).sum = counted p g ∧
      magnitude (gs.map fun q => (counted p q : Int)) = counted p g := by
  cases hin : p.input with
  | none =>
    have hlen : (gs.flatMap id).length = g.length := by
      rw [flatMap_id]
      exact h.perm.length_eq
    simp only [counted, hin]
    exact ⟨(sum_lengths gs id).trans (by rw [hlen]), (magnitude_lengths gs id).trans hlen⟩
  | some c =>
    have hlen : (gs.flatMap (present · c)).length = (present g c).length := (present_perm h c).length_eq
    simp only [counted, hin]
    exact ⟨(sum_lengths gs (present · c)).trans (by rw [hlen]),
      (magnitude_lengths gs (present · c)).trans hlen⟩

omit ha hd hp h in
theorem evalAgg_count (hfunc : p.func = .count) (hdist : p.distinct = false) (g : List Row) :
    evalAgg type p g = some (some (.num (counted p g))) := by
  cases hin : p.input <;> simp [evalAgg, counted, hfunc, hin, hdist]

omit ha hd hp h in
theorem counted_le (p : AggExpr) (g : List Row) : counted p g ≤ g.length := by
  unfold counted
  split
  · exact le_refl _
  · exact length_filterMap_le _ _

theorem evalAgg_sum_of_counts (hfunc : p.func = .count) (hdist : p.distinct = false)
    (hlen : g.length < 2 ^ 63) :
    evalAgg (outType (innerOf n x) type) { func := .sum, input := some p.output, output := out }
      (reps n x type gs) = some (if gs.isEmpty then none else some (.num (counted p g))) := by
  have hnums : nums (reps n x type gs) p.output = gs.map fun q => (counted p q : Int) := by
    rw [nums_reps, ← filterMap_eq_map]
    refine filterMap_congr fun q _ => ?_
    rw [outRow_slot ha hd hp, evalAgg_count hfunc hdist]
    rfl
  have htype : outType (innerOf n x) type p.output = .int64 := by
    rw [outType_slot type x ha hd hp]
    simp only [aggType, hfunc]
  obtain ⟨hsum, hmag⟩ := counted_parts h p
  have hle := counted_le p g
  have hbound : counted p g < sumBound .int64 := by
    change counted p g < 2 ^ 127
    omega
  rw [evalAgg_sum rfl rfl, hnums, htype, sumOf_eq _ _ (hmag ▸ hbound), total, hsum, isEmpty_map]

theorem evalAgg_extreme {f : AggFunc} {pick : List Int → Option Int}
    (heval : ∀ {type a c}, a.func = f → a.input = some c →
      ∀ g, evalAgg type a g = some ((pick (nums g c)).map .num))
    (hflat : ∀ (gs : List (List Row)) (f : List Row → List Int),
      pick (gs.filterMap fun g => pick (f g)) = pick (gs.flatMap f))
    (hperm : ∀ {vs ws}, vs.Perm ws → pick vs = pick ws) {c : Col} (hfunc : p.func = f)
    (hin : p.input = some c) :
    evalAgg (outType (innerOf n x) type) { func := f, input := some p.output, output := out }
      (reps n x type gs) = some ((pick (nums g c)).map .num) := by
  have hnums : nums (reps n x type gs) p.output = gs.filterMap fun q => pick (nums q c) := by
    rw [nums_reps]
    refine filterMap_congr fun q _ => ?_
    rw [outRow_slot ha hd hp, heval hfunc hin]
    cases pick (nums q c) <;> rfl
  rw [heval rfl rfl, hnums, hflat, hperm (nums_perm h c)]

end Aggregates

theorem distinct_perm (type : Col → ColType) (hn : Named n x) (h : Parts (· x) g gs) :
    (present (reps n x type gs) x).Perm (distinctBy eqKey (present g x)) := by
  have hreps : present (reps n x type gs) x = gs.filterMap fun q => q.head?.bind (· x) := by
    rw [present, reps, filterMap_map]
    exact filterMap_congr fun q _ => outRow_key hn (mem_append_right _ mem_cons_self) q
  rw [hreps]
  refine (perm_ext_iff_of_nodup ?_ (distinctBy_nodup _)).mpr fun v => ?_
  · rw [List.Nodup, pairwise_filterMap]
    refine h.apart.imp fun {q q'} hne v hv w hw heq => ?_
    obtain ⟨r, hr, hrv⟩ := Option.bind_eq_some_iff.mp hv
    obtain ⟨r', hr', hrw⟩ := Option.bind_eq_some_iff.mp hw
    exact hne r (mem_of_mem_head? hr) r' (mem_of_mem_head? hr')
      (hrv.trans ((congrArg some heq).trans hrw.symm))
  · rw [mem_distinctBy, mem_filterMap, present, mem_filterMap]
    constructor
    · rintro ⟨q, hq, hv⟩
      obtain ⟨r, hr, hrv⟩ := Option.bind_eq_some_iff.mp hv
      exact ⟨r, h.mem hq (mem_of_mem_head? hr), hrv⟩
    · rintro ⟨r, hr, hrv⟩
      obtain ⟨q, hq, hrq⟩ := mem_flatten.mp (h.perm.mem_iff.mpr hr)
      refine ⟨q, hq, ?_⟩
      obtain ⟨r', hr'⟩ : ∃ r', q.head? = some r' := ⟨_, head?_eq_some_head (h.nonempty q hq)⟩
      rw [hr', ← hrv]
      exact h.const q hq r' (mem_of_mem_head? hr') r hrq

end Wadjet.Logical.CountDistinct
