import Mathlib.Algebra.Order.BigOperators.Group.List
import Wadjet.Logical.CountDistinct.Combine

namespace Wadjet.Logical.CountDistinct

open Wadjet.Sql Wadjet.Data Wadjet.Engine List Option

variable {type : Col → ColType} {n : Aggregate} {x : Col} {g : List Row} {gs : List (List Row)}

theorem avgScale_sub_le (s : Nat) : avgScale s - s ≤ 4 := by
  unfold avgScale avgScaleIncrement maxDecimalScale
  split <;> omega

variable (t : ColType)

theorem avgType_scale (h : t ≠ .text) : (avgType t).scale = avgScale t.scale := by
  cases t with
  | int32 | int64 | decimal p s => rfl
  | text => exact absurd rfl h

private theorem scaled_lt {vs : List Int} {e : Nat} (he : e ≤ 6) (h : magnitude vs * 10 ^ 6 < 10 ^ 38) :
    (vs.sum * 10 ^ e).natAbs < 10 ^ 38 := by
  have hsum := natAbs_sum_le vs
  have hpow : 10 ^ e ≤ 10 ^ 6 := Nat.pow_le_pow_right (by omega) he
  calc (vs.sum * 10 ^ e).natAbs = vs.sum.natAbs * 10 ^ e := by
        rw [Int.natAbs_mul]
        rfl
    _ ≤ magnitude vs * 10 ^ 6 := Nat.mul_le_mul hsum hpow
    _ < 10 ^ 38 := h

def average (vs : List Int) (addScale : Nat) : Option Value :=
  if vs.isEmpty then none else some (.num (divRound (vs.sum * 10 ^ addScale) vs.length))

theorem narrow_of_lt {v : Int} (h : v.natAbs < 10 ^ 38) :
    ∃ w : Batch.Int128, Wide.narrow v = some w ∧ w.signed = v :=
  ⟨_, if_pos (by omega), Wide.narrow_eq_some_iff.mp (if_pos (by omega))⟩

theorem avgOf_eq (ht : t ≠ .text) (vs : List Int) (hlength : vs.length < 2 ^ 63)
    (h : magnitude vs * 10 ^ 6 < 10 ^ 38) :
    avgOf t vs = some (average vs (avgScale t.scale - t.scale)) := by
  unfold avgOf average
  split
  · rfl
  next hne =>
    have hlen : 0 < (vs.length : Int) := by
      rw [List.isEmpty_iff] at hne
      have := length_pos_iff.mpr hne
      omega
    have hadd := avgScale_sub_le t.scale
    have hscaled := scaled_lt (by omega : avgScale t.scale - t.scale ≤ 6) h
    have hround := natAbs_divRound_le (vs.sum * 10 ^ (avgScale t.scale - t.scale)) _ hlen
    obtain ⟨w, hw, hsum⟩ := narrow_of_lt (by have := natAbs_sum_le vs; omega : vs.sum.natAbs < 10 ^ 38)
    obtain ⟨q, hq, hquotient⟩ := narrow_of_lt (hround.trans_lt hscaled)
    rw [runningSum_eq (fun v hv => fitsInt128_of_lt hv) vs (by omega), bind_some, hw, bind_some,
      avgType_scale t ht, Batch.decimalAvg_eq w hlen (by omega) (by omega), hsum, Int.toNat_natCast, hq,
      map_some, hquotient]

theorem length_nums_lt {c : Col} (h : g.length < 2 ^ 63) : (nums g c).length < 2 ^ 63 :=
  (length_filterMap_le _ g).trans_lt h

theorem evalAgg_isSome {a : AggExpr} (hnum : Numeric type a g) (hcar : InCarrier type a g) :
    (evalAgg type a g).isSome := by
  have hin := hnum.input
  cases hf : a.func with
  | count => cases hc : a.input <;> simp [evalAgg, hf, hc, apply_ite]
  | sum =>
    obtain ⟨c, hc, -⟩ := hin (by simp [hf])
    simp only [InCarrier, hf, hc] at hcar
    rw [evalAgg_sum hf hc, sumOf_eq _ _ hcar]
    rfl
  | min =>
    obtain ⟨c, hc, -⟩ := hin (by simp [hf])
    rw [evalAgg_min hf hc]
    rfl
  | max =>
    obtain ⟨c, hc, -⟩ := hin (by simp [hf])
    rw [evalAgg_max hf hc]
    rfl
  | avg =>
    obtain ⟨c, hc, ht, -⟩ := hin (by simp [hf])
    simp only [InCarrier, hf, hc] at hcar
    rw [evalAgg_avg hf hc, avgOf_eq _ ht _ (length_nums_lt hcar.1) hcar.2.2]
    rfl
  | other name =>
    have hfunc := hnum.func
    rw [hf] at hfunc
    cases hfunc

structure CellOk (type : Col → ColType) (a : AggExpr) (g : List Row) : Prop where
  count : a.func = .count → a.distinct = false → g ≠ []
  avg : a.func = .avg → ∀ c, a.input = some c → nums g c ≠ [] → (type c).scale = 2 ∨ (type c).scale = 38

variable {a : AggExpr} {i : Nat}

theorem combined_nonavg (hn : Named n x) (ha : (a, i) ∈ n.aggs.zipIdx) (h : Parts (· x) g gs)
    (hx : a.distinct → a.func = .count ∧ a.input = some x) (havg : a.func ≠ .avg)
    (hnum : Numeric type a g) (hcar : InCarrier type a g) :
    ∃ q, outerOf i a = [q] ∧ q.output = a.output ∧
      evalAgg (outType (innerOf n x) type) q (reps n x type gs) =
        some (if a.func = .count ∧ a.distinct = false ∧ g = [] then none else (evalAgg type a g).join) ∧
      (aggType (outType (innerOf n x) type) q).scale = (aggType type a).scale := by
  have hempty : gs.isEmpty = decide (g = []) := by
    rw [Bool.eq_iff_iff, List.isEmpty_iff, decide_eq_true_eq]
    exact h.eq_nil_iff
  cases hd : a.distinct with
  | true =>
    obtain ⟨hf, hin⟩ := hx hd
    refine ⟨{ func := .count, input := a.input, output := a.output }, ?_, rfl, ?_, ?_⟩
    · simp [outerOf, hd]
    · have hlen := (distinct_perm type hn h).length_eq
      simp only [evalAgg, hf, hin, hd, if_true, hlen]
      rfl
    · simp [aggType, hf]
  | false =>
    have hin := hnum.input
    cases hf : a.func with
    | count =>
      simp only [InCarrier, hf] at hcar
      refine ⟨{ func := .sum, input := some (.slot .count i), output := a.output }, ?_, rfl, ?_, ?_⟩
      · simp [outerOf, hd, combined, hf]
      · have hp : { a with output := .slot .count i } ∈ partials i a := by simp [partials, hf]
        rw [evalAgg_sum_of_counts ha hd hp h a.output hf hd hcar, evalAgg_count hf hd, hempty]
        by_cases hg : g = [] <;> simp [hg, counted]
      · have hp : { a with output := .slot .count i } ∈ partials i a := by simp [partials, hf]
        have htype := outType_slot type x ha hd hp
        simp only [aggType, hf] at htype ⊢
        rw [htype]
        rfl
    | sum =>
      obtain ⟨c, hc, -⟩ := hin (by simp [hf])
      simp only [InCarrier, hf, hc] at hcar
      have hp : { a with output := .slot .sum i } ∈ partials i a := by simp [partials, hf]
      refine ⟨{ func := .sum, input := some (.slot .sum i), output := a.output }, ?_, rfl, ?_, ?_⟩
      · simp [outerOf, hd, combined, hf]
      · rw [evalAgg_sum_of_sums ha hd hp h a.output hf hc hcar, evalAgg_sum hf hc, sumOf_eq _ _ hcar]
        simp
      · have htype := outType_slot type x ha hd hp
        simp only [aggType, hf, hc] at htype ⊢
        rw [htype]
        cases type c <;> rfl
    | min =>
      obtain ⟨c, hc, -⟩ := hin (by simp [hf])
      have hp : { a with output := .slot .min i } ∈ partials i a := by simp [partials, hf]
      refine ⟨{ func := .min, input := some (.slot .min i), output := a.output }, ?_, rfl, ?_, ?_⟩
      · simp [outerOf, hd, combined, hf]
      · rw [evalAgg_extreme ha hd hp h a.output evalAgg_min min?_flatMap min?_perm hf hc, evalAgg_min hf hc]
        simp
      · have htype := outType_slot type x ha hd hp
        simp only [aggType] at htype ⊢
        rw [htype]
    | max =>
      obtain ⟨c, hc, -⟩ := hin (by simp [hf])
      have hp : { a with output := .slot .max i } ∈ partials i a := by simp [partials, hf]
      refine ⟨{ func := .max, input := some (.slot .max i), output := a.output }, ?_, rfl, ?_, ?_⟩
      · simp [outerOf, hd, combined, hf]
      · rw [evalAgg_extreme ha hd hp h a.output evalAgg_max max?_flatMap max?_perm hf hc, evalAgg_max hf hc]
        simp
      · have htype := outType_slot type x ha hd hp
        simp only [aggType] at htype ⊢
        rw [htype]
    | avg => exact absurd hf havg
    | other name =>
      have hfunc := hnum.func
      rw [hf] at hfunc
      cases hfunc

theorem combined_avg (ha : (a, i) ∈ n.aggs.zipIdx) (hd : a.distinct = false) (h : Parts (· x) g gs)
    (hf : a.func = .avg) {c : Col} (hc : a.input = some c) (hcar : InCarrier type a g) :
    evalAgg (outType (innerOf n x) type)
        { func := .sum, input := some (.slot .avgsum i), output := .slot .avgsum i } (reps n x type gs) =
      some (total (nums g c)) ∧
    evalAgg (outType (innerOf n x) type)
        { func := .sum, input := some (.slot .avgcnt i), output := .slot .avgcnt i } (reps n x type gs) =
      some (if gs.isEmpty then none else some (.num (present g c).length)) ∧
    aggType (outType (innerOf n x) type)
        { func := .sum, input := some (.slot .avgsum i), output := .slot .avgsum i } =
      sumType (sumType (type c)) ∧
    aggType (outType (innerOf n x) type)
        { func := .sum, input := some (.slot .avgcnt i), output := .slot .avgcnt i } = .decimal 38 0 := by
  simp only [InCarrier, hf, hc] at hcar
  have hp : { a with func := .sum, output := .slot .avgsum i } ∈ partials i a := by simp [partials, hf]
  have hp' : { a with func := .count, output := .slot .avgcnt i } ∈ partials i a := by simp [partials, hf]
  have htype := outType_slot type x ha hd hp
  have htype' := outType_slot type x ha hd hp'
  simp only [hc] at htype htype'
  refine ⟨evalAgg_sum_of_sums ha hd hp h _ rfl hc hcar.2.1, ?_, ?_, ?_⟩
  · rw [evalAgg_sum_of_counts ha hd hp' h _ rfl hd hcar.1, counted]
    simp only [hc]
  · simp only [aggType, htype]
  · simp only [aggType, htype']
    rfl

theorem present_length {c : Col} (hval : ∀ row ∈ g, ∀ v, row c = some v → v.num?.isSome) :
    (present g c).length = (nums g c).length := by
  induction g with
  | nil => rfl
  | cons row g ih =>
    have htail := ih fun r hr => hval r (mem_cons_of_mem row hr)
    rw [present, nums, filterMap_cons, filterMap_cons]
    cases hrow : row c with
    | none => exact htail
    | some v =>
      obtain ⟨k, hk⟩ := isSome_iff_exists.mp (hval row mem_cons_self v hrow)
      simp only [bind_some, hk]
      exact congrArg (· + 1) htail

theorem sumType_sumType (ht : t ≠ .text) : (sumType (sumType t)).decimalPS = (38, t.scale) := by
  cases t with
  | int32 | int64 | decimal p s => rfl
  | text => exact absurd rfl ht

theorem quotient_eq {sum count : Int} {inScale addScale : Nat} (hcount : 0 < count)
    (hhigh : count < 10 ^ 38) (hlow : sum.natAbs < 10 ^ 38) (hscale : inScale + addScale < 2 ^ 63)
    (hsum : (sum * 10 ^ addScale).natAbs < 10 ^ 38) :
    (do
      let (q, status) := Batch.decimalApplyAt .div (← Wide.narrow sum) inScale
        (← Wide.narrow count) 0 38 (inScale + addScale)
      if status = .ok then some (some (Value.num q.signed)) else none) =
      some (some (.num (divRound (sum * 10 ^ addScale) count))) := by
  obtain ⟨a, ha, hvalue⟩ := narrow_of_lt hlow
  obtain ⟨b, hb, hdivisor⟩ := narrow_of_lt (by omega : count.natAbs < 10 ^ 38)
  have hround := natAbs_divRound_le (sum * 10 ^ addScale) count hcount
  obtain ⟨q, hq, happly⟩ := (Batch.decimalAtPrecision_narrow
    (divRound (sum * 10 ^ addScale) count) (by omega) le_rfl).1 (hround.trans_lt hsum)
  have hdiv : Batch.decimalApplyAt .div a inScale b 0 38 (inScale + addScale) = (q, .ok) := by
    have hscale : (↑(inScale + addScale) + ((0 : Nat) : Int) - inScale).toNat = addScale := by omega
    rw [Batch.decimalApplyAt, Batch.decimalApply, Batch.decimalDiv_eq a (by omega) (by omega) (by omega)
      (by omega) (by omega) (by omega), Batch.quotientAt, if_pos (by omega), hvalue, hdivisor, hscale,
      happly]
  rw [ha, hb]
  simp only [Option.bind_eq_bind, bind_some, hdiv, if_pos, hq]

theorem evalQuotient_avg {type₂ : Col → ColType} {row : Row} {sum count : Col} {t : ColType} {vs : List Int}
    (ht : t ≠ .text) (hscale : t.scale ≤ 38) (hsumType : type₂ sum = sumType (sumType t))
    (hcountType : type₂ count = .decimal 38 0) (hsum : row sum = total vs)
    (hcount : vs ≠ [] → row count = some (.num vs.length)) (hlength : vs.length < 2 ^ 63)
    (hbound : magnitude vs * 10 ^ 6 < 10 ^ 38) :
    evalQuotient type₂ sum count row = some (average vs (max t.scale 6 - t.scale)) ∧
      (quotientType type₂ sum count) = (38, max t.scale 6) := by
  have hps := sumType_sumType t ht
  have hq : quotientType type₂ sum count = (38, max t.scale 6) := by
    rw [quotientType, hsumType, hcountType, hps]
    exact decimalResultType_div t.scale hscale
  refine ⟨?_, hq⟩
  unfold evalQuotient average
  cases vs with
  | nil =>
    rw [hsum]
    rfl
  | cons v vs =>
    have hlen : 0 < ((v :: vs).length : Int) := by
      simp only [length_cons]
      omega
    have hexp : t.scale + (max t.scale 6 - t.scale) = max t.scale 6 := by omega
    have hlow := natAbs_sum_le (v :: vs)
    have hdiv := @quotient_eq (v :: vs).sum (v :: vs).length t.scale (max t.scale 6 - t.scale) hlen
      (by omega) (by omega) (by omega) (scaled_lt (by omega) hbound)
    rw [hexp] at hdiv
    simp only [hsum, total, hcount (by simp), isEmpty_cons, Bool.false_eq_true, if_false,
      bind_some, Value.num?, hsumType, hps, hcountType, hq]
    exact hdiv

theorem average_eq_iff (vs : List Int) (s : Nat) (hs : s ≤ 38) :
    ((average vs (max s 6 - s)).map fun v => (v, max s 6)) =
        ((average vs (avgScale s - s)).map fun v => (v, avgScale s)) ↔
      (vs ≠ [] → s = 2 ∨ s = 38) := by
  rw [← avgScale_eq_divScale s hs]
  cases vs with
  | nil => simp [average]
  | cons v vs =>
    simp only [average, isEmpty_cons, if_false, map_some,
      some.injEq, Prod.mk.injEq, ne_eq, reduceCtorEq, not_false_eq_true, forall_const]
    constructor
    · intro h
      exact h.2.symm
    · intro h
      rw [h]
      exact ⟨rfl, rfl⟩

theorem partial_isSome {p : AggExpr} (hd : a.distinct = false) (hp : p ∈ partials i a)
    (hnum : Numeric type a g) (hcar : InCarrier type a g) : (evalAgg type p g).isSome := by
  cases hf : a.func with
  | avg =>
    obtain ⟨c, hc, -⟩ := hnum.input (by simp [hf])
    simp only [InCarrier, hf, hc] at hcar
    simp only [partials, hf, mem_cons, not_mem_nil, or_false] at hp
    rcases hp with rfl | rfl
    · simp only [evalAgg, hc, sumOf_eq _ _ hcar.2.1, isSome_some]
    · simp [evalAgg, hc, hd]
  | count | sum | min | max =>
    -- a partial reads what its aggregate reads
    obtain ⟨out, rfl⟩ : ∃ out, p = { a with output := out } := ⟨_, by simpa [partials, hf] using hp⟩
    exact evalAgg_isSome (a := a) hnum hcar
  | other name =>
    simp [partials, hf] at hp

theorem InCarrier.sublist {g' : List Row} (h : InCarrier type a g) (hsub : g'.Sublist g) :
    InCarrier type a g' := by
  have hlen := hsub.length_le
  have hmag : ∀ c, magnitude (nums g' c) ≤ magnitude (nums g c) := fun c =>
    ((hsub.filterMap _).map Int.natAbs).sum_le_sum fun _ _ => Nat.zero_le _
  unfold InCarrier at h ⊢
  split
  next hf => 
    simp only [hf] at h
    omega
  next c hf hc =>
    have := hmag c
    simp only [hf, hc] at h
    omega
  next c hf hc =>
    have := hmag c
    simp only [hf, hc] at h
    omega
  next => trivial

theorem Numeric.subset {g' : List Row} (h : Numeric type a g) (hsub : ∀ r ∈ g', r ∈ g) :
    Numeric type a g' where
  func := h.func
  input := fun hf => by
    obtain ⟨c, hc, ht, hs, hval⟩ := h.input hf
    exact ⟨c, hc, ht, hs, fun row hrow => hval row (hsub row hrow)⟩

end Wadjet.Logical.CountDistinct
