import Wadjet.Data.Wide

namespace Wadjet.Engine.Scan

open Wadjet.Data List

-- A boxed statistics value; a float is given by its conversion to int64.
inductive StatValue where
  | int64 (v : Int)
  | int32 (v : Int)
  | int (v : Int)
  | float64 (v : Int)
  | other

def StatValue.toInt64 : StatValue → Int
  | .int64 v => v
  | .int32 v => v
  | .int v => v
  | .float64 v => v
  | .other => 0

def StatValue.isInteger : StatValue → Bool
  | .int64 _ => true
  | .int32 _ => true
  | .int _ => true
  | .float64 _ => false
  | .other => false

structure ColumnStats where
  hasStats : Bool
  minValue : Option StatValue
  maxValue : Option StatValue
  nullCount : Nat

structure BloomScanFilter where
  contains : Int → Bool
  useIntKey : Bool

def maxRangeSize : Int :=
  1024

def probeRange (bf : Option BloomScanFilter) (stats : Option ColumnStats) (numRows : Nat) :
    Option (BloomScanFilter × Int × Int) :=
  match bf, stats with
  | some bf, some stats =>
    match stats.minValue, stats.maxValue with
    | some low, some high =>
      let rangeSize := wrap64 (wrap64 (high.toInt64 - low.toInt64) + 1)
      if bf.useIntKey = false ∨ stats.hasStats = false ∨ stats.nullCount = numRows then none
      else if low.toInt64 = 0 ∧ high.toInt64 = 0 ∧ low.isInteger = false then none
      else if rangeSize ≤ 0 ∨ maxRangeSize < rangeSize then none
      else some (bf, low.toInt64, high.toInt64)
    | _, _ => none
  | _, _ => none

-- The loop from a value on: its answer and the values it probes. The counter wraps.
inductive Probes (contains : Int → Bool) (high : Int) : Int → Bool → List Int → Prop where
  | past {v : Int} (h : high < v) : Probes contains high v true []
  | found {v : Int} (h : v ≤ high) (hfound : contains v) : Probes contains high v false [v]
  | next {v : Int} {out : Bool} {probed : List Int} (h : v ≤ high) (habsent : contains v = false)
      (hrest : Probes contains high (wrap64 (v + 1)) out probed) : Probes contains high v out (v :: probed)

inductive CanBloomPruneRowGroup (bf : Option BloomScanFilter) (stats : Option ColumnStats) (numRows : Nat) :
    Bool → List Int → Prop where
  | refused (h : probeRange bf stats numRows = none) : CanBloomPruneRowGroup bf stats numRows false []
  | looked {filter : BloomScanFilter} {low high : Int} {out : Bool} {probed : List Int}
      (h : probeRange bf stats numRows = some (filter, low, high))
      (hrun : Probes filter.contains high low out probed) : CanBloomPruneRowGroup bf stats numRows out probed

section Loop

variable {contains : Int → Bool} {high low : Int}

theorem probes_of_lt (hhigh : high < 2 ^ 63 - 1) (hlow : -2 ^ 63 ≤ low) :
    ∃ out probed, Probes contains high low out probed ∧ (∀ v ∈ probed, low ≤ v ∧ v ≤ high) ∧
      (out ↔ ∀ v, low ≤ v → v ≤ high → contains v = false) := by
  induction hn : (high + 1 - low).toNat generalizing low with
  | zero =>
    exact ⟨true, [], .past (by omega), nofun, iff_of_true rfl fun v _ _ => by omega⟩
  | succ n ih =>
    have hle : low ≤ high := by omega
    cases hfound : contains low with
    | true =>
      refine ⟨false, [low], .found hle hfound, ?_, iff_of_false Bool.false_ne_true fun h => ?_⟩
      · intro v hv
        rw [mem_singleton.mp hv]
        exact ⟨le_refl _, hle⟩
      · rw [h low (le_refl _) hle] at hfound
        cases hfound
    | false =>
      have hstep : wrap64 (low + 1) = low + 1 := wrap64_eq (by omega) (by omega)
      obtain ⟨out, probed, hrun, hprobed, hout⟩ := @ih (low + 1) (by omega) (by omega)
      refine ⟨out, low :: probed, .next hle hfound (by rw [hstep]; exact hrun), ?_, ?_⟩
      · intro v hv
        obtain rfl | hv := mem_cons.mp hv
        · exact ⟨le_refl _, hle⟩
        · have := hprobed v hv
          omega
      · rw [hout]
        constructor
        · intro h v hlow hhigh
          by_cases hv : v = low
          · rw [hv]
            exact hfound
          · exact h v (by omega) hhigh
        · intro h v hlow hhigh
          exact h v (by omega) hhigh

theorem probes_of_found (hhigh : high < 2 ^ 63) (hlow : -2 ^ 63 ≤ low)
    (h : ∃ v, low ≤ v ∧ v ≤ high ∧ contains v) :
    ∃ probed, Probes contains high low false probed ∧ ∀ v ∈ probed, low ≤ v ∧ v ≤ high := by
  obtain ⟨v, hv, hvhigh, hfound⟩ := h
  induction hn : (v - low).toNat generalizing low with
  | zero =>
    obtain rfl : v = low := by omega
    refine ⟨[v], .found hvhigh hfound, fun x hx => ?_⟩
    rw [mem_singleton.mp hx]
    exact ⟨le_refl _, hvhigh⟩
  | succ n ih =>
    cases hfirst : contains low with
    | true =>
      refine ⟨[low], .found (by omega) hfirst, fun x hx => ?_⟩
      rw [mem_singleton.mp hx]
      omega
    | false =>
      have hstep : wrap64 (low + 1) = low + 1 := wrap64_eq (by omega) (by omega)
      obtain ⟨probed, hrun, hprobed⟩ := @ih (low + 1) (by omega) (by omega) (by omega)
      refine ⟨low :: probed, .next (by omega) hfirst (by rw [hstep]; exact hrun), fun x hx => ?_⟩
      obtain rfl | hx := mem_cons.mp hx
      · omega
      · have := hprobed x hx
        omega

theorem not_probes_in_range (hlow : -2 ^ 63 < low) (hle : low ≤ 2 ^ 63 - 1)
    (habsent : ∀ v, low ≤ v → v ≤ 2 ^ 63 - 1 → contains v = false) {out : Bool} {probed : List Int}
    (h : Probes contains (2 ^ 63 - 1) low out probed) : -2 ^ 63 ∈ probed := by
  induction hn : (2 ^ 63 - 1 - low).toNat generalizing low probed with
  | zero =>
    obtain rfl : low = 2 ^ 63 - 1 := by omega
    cases h with
    | past h => omega
    | found h hfound =>
      rw [habsent _ (le_refl _) (le_refl _)] at hfound
      cases hfound
    | next h hnone hrest =>
      have hwrap : wrap64 (2 ^ 63 - 1 + 1) = -2 ^ 63 := by decide
      refine mem_cons_of_mem _ ?_
      cases hrest with
      | past h => omega
      | found h hfound => exact mem_singleton.mpr rfl
      | next h hnone hrest => exact mem_cons_self
  | succ n ih =>
    cases h with
    | past h => omega
    | found h hfound =>
      rw [habsent _ (le_refl _) (by omega)] at hfound
      cases hfound
    | next h hnone hrest =>
      rw [wrap64_eq (by omega) (by omega)] at hrest
      exact mem_cons_of_mem _
        (ih (by omega) (by omega) (fun v hv hvhigh => habsent v (by omega) hvhigh) hrest (by omega))

end Loop

def rangeStats (low high : Int) (nullCount : Nat) : ColumnStats :=
  ⟨true, some (.int64 low), some (.int64 high), nullCount⟩

theorem probeRange_eq {bf : BloomScanFilter} (huse : bf.useIntKey) {low high : Int} {nullCount numRows : Nat}
    (hnulls : nullCount ≠ numRows) (hlow : -2 ^ 63 ≤ low) (hle : low ≤ high) (hhigh : high < 2 ^ 63) :
    probeRange (some bf) (some (rangeStats low high nullCount)) numRows =
      if high - low < 1024 then some (bf, low, high) else none := by
  have hsize : (wrap64 (wrap64 (high - low) + 1) ≤ 0 ∨ maxRangeSize < wrap64 (wrap64 (high - low) + 1)) ↔
      ¬ high - low < 1024 := by
    unfold wrap64 Int.bmod maxRangeSize
    dsimp only
    split_ifs <;> omega
  unfold probeRange rangeStats StatValue.toInt64 StatValue.isInteger
  dsimp only
  rw [huse, if_neg (by simp [hnulls]), if_neg (by simp)]
  by_cases hsmall : high - low < 1024
  · rw [if_neg (fun h => hsize.mp h hsmall), if_pos hsmall]
  · rw [if_pos (hsize.mpr hsmall), if_neg hsmall]

-- The check of a small range is exact but for a range that ends at the largest integer and
-- has no value in the filter.
theorem bloomPrune_exact (bf : BloomScanFilter) (huse : bf.useIntKey) (low high : Int)
    (nullCount numRows : Nat) (hnulls : nullCount ≠ numRows) (hlow : -2 ^ 63 ≤ low) (hle : low ≤ high)
    (hhigh : high < 2 ^ 63) :
    (high - low < 1024 →
      ((∃ out probed, CanBloomPruneRowGroup (some bf) (some (rangeStats low high nullCount)) numRows out probed ∧
          (∀ v ∈ probed, low ≤ v ∧ v ≤ high) ∧
          (out ↔ ∀ v, low ≤ v → v ≤ high → bf.contains v = false)) ↔
        high ≠ 2 ^ 63 - 1 ∨ ∃ v, low ≤ v ∧ v ≤ high ∧ bf.contains v)) ∧
    (1024 ≤ high - low → ∀ out probed,
      CanBloomPruneRowGroup (some bf) (some (rangeStats low high nullCount)) numRows out probed ↔
        out = false ∧ probed = []) := by
  have hrange := probeRange_eq huse hnulls hlow hle hhigh
  constructor
  · intro hsmall
    rw [if_pos hsmall] at hrange
    constructor
    · rintro ⟨out, probed, hrun, hprobed, -⟩
      cases hrun with
      | refused h =>
        rw [hrange] at h
        cases h
      | looked h hrun =>
        rw [hrange] at h
        cases h
        by_contra hnot
        rw [not_or, not_not, not_exists] at hnot
        obtain ⟨rfl, hnone⟩ := hnot
        have habsent : ∀ v, low ≤ v → v ≤ 2 ^ 63 - 1 → bf.contains v = false := by
          intro v hv hv'
          rw [← Bool.not_eq_true]
          exact fun hfound => hnone v ⟨hv, hv', hfound⟩
        have hmem := not_probes_in_range (by omega) hle habsent hrun
        have := hprobed _ hmem
        omega
    · rintro (hne | hfound)
      · obtain ⟨out, probed, hrun, hprobed, hout⟩ :=
          @probes_of_lt bf.contains high low (by omega) hlow
        exact ⟨out, probed, .looked hrange hrun, hprobed, hout⟩
      · obtain ⟨probed, hrun, hprobed⟩ := probes_of_found hhigh hlow hfound
        refine ⟨false, probed, .looked hrange hrun, hprobed, iff_of_false Bool.false_ne_true fun h => ?_⟩
        obtain ⟨v, hv, hv', hfound⟩ := hfound
        rw [h v hv hv'] at hfound
        cases hfound
  · intro hlarge out probed
    rw [if_neg (by omega)] at hrange
    constructor
    · intro hrun
      cases hrun with
      | refused h => exact ⟨rfl, rfl⟩
      | looked h hrun =>
        rw [hrange] at h
        cases h
    · rintro ⟨rfl, rfl⟩
      exact .refused hrange

theorem bloomPrune_exact_digits :
    ∃ out probed, CanBloomPruneRowGroup (some ⟨fun v => v == 7, true⟩) (some (rangeStats 1 5 0)) 10 out probed ∧
      (∀ v ∈ probed, 1 ≤ v ∧ v ≤ 5) ∧ (out ↔ ∀ v : Int, 1 ≤ v → v ≤ 5 → (v == 7) = false) :=
  ((bloomPrune_exact ⟨fun v => v == 7, true⟩ rfl 1 5 0 10 (by decide) (by decide) (by decide) (by decide)).1
    (by decide)).mpr (.inl (by decide))

-- An empty filter and the one value 2^63 - 1: no run stays in the range.
theorem bloomPrune_wraps :
    ¬ ∃ out probed, CanBloomPruneRowGroup (some ⟨fun _ => false, true⟩)
        (some (rangeStats (2 ^ 63 - 1) (2 ^ 63 - 1) 0)) 1 out probed ∧
      ∀ v ∈ probed, 2 ^ 63 - 1 ≤ v ∧ v ≤ 2 ^ 63 - 1 := by
  have hrange := @probeRange_eq ⟨fun _ => false, true⟩ rfl (2 ^ 63 - 1) (2 ^ 63 - 1) 0 1 (by decide) (by decide)
    (by decide) (by decide)
  rintro ⟨out, probed, hrun, hprobed⟩
  cases hrun with
  | refused h =>
    cases h
  | looked h hrun =>
    cases h
    have hmem := not_probes_in_range (by decide) (by decide) (fun _ _ _ => rfl) hrun
    exact absurd (hprobed _ hmem) (by decide)

end Wadjet.Engine.Scan
