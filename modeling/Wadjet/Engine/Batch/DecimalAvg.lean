import Wadjet.Engine.Batch.DecimalExact

namespace Wadjet.Engine.Batch

open Wadjet.Data Wide

def fitsInt64 (d : Int128) : Bool :=
  d.hi = 0 && d.lo < 2 ^ 63 || d.hi = 2 ^ 64 - 1 && 2 ^ 63 ≤ d.lo

def toInt64 (d : Int128) : Int :=
  wrap64 d.lo

def avgWord (n count : Int) : Int128 :=
  let q := n.tdiv count
  let rem := n.tmod count
  let rem := if rem < 0 then wrap64 (-rem) else rem
  int128From (if count ≤ wrap64 (rem * 2) then
    if n < 0 then wrap64 (q - 1) else wrap64 (q + 1)
  else q)

def avgCarrier (scaled den : Int128) : Option Int128 :=
  (quoRem scaled den).map fun (q, rem) =>
    let rem := if rem.isNegative then rem.neg else rem
    match rem.addChecked rem with
    | none => q
    | some twice =>
      if twice.less den then q
      else if scaled.isNegative then q.sub (int128From 1) else q.add (int128From 1)

def avgBig (num den : Int) : Option Int128 :=
  let q := num.tdiv den
  narrow (if den ≤ (num.tmod den).natAbs * 2 then if num < 0 then q - 1 else q + 1 else q)

def decimalAvg (sum : Int128) (count addScale : Int) : Option Int128 :=
  if count ≤ 0 ∨ addScale < 0 then none
  else
    let scaled := mulPow10 sum addScale
    match scaled.filter fun d => fitsInt64 d && count < 2 ^ 62 with
    | some d => some (avgWord (toInt64 d) count)
    | none =>
      match scaled.bind fun d => avgCarrier d (int128From count) with
      | some q => some q
      | none => avgBig (sum.signed * 10 ^ addScale.toNat) count

theorem signed_int128From {v : Int} (hlow : -2 ^ 63 ≤ v) (hhigh : v < 2 ^ 63) :
    (int128From v).signed = v := by
  rw [signed_eq, int128From, value_ofWords (by split_ifs <;> decide) (by omega)]
  split_ifs <;> omega

theorem fitsInt64_signed {d : Int128} (h : fitsInt64 d) :
    -2 ^ 63 ≤ d.signed ∧ d.signed < 2 ^ 63 ∧ toInt64 d = d.signed := by
  have hlo := d.lo_lt
  rw [fitsInt64] at h
  simp only [Bool.or_eq_true, Bool.and_eq_true, decide_eq_true_eq] at h
  rw [signed_eq, value, toInt64, wrap64, Int.bmod]
  split_ifs <;> omega

theorem signed_add_of_fits {w other : Wide} (hlow : -2 ^ 127 ≤ w.signed + other.signed)
    (hhigh : w.signed + other.signed < 2 ^ 127) :
    (w.add other).signed = w.signed + other.signed := by
  rw [signed_eq w, signed_eq other] at *
  rw [signed_eq, value_add]
  split_ifs at * <;> omega

section Count

variable {count : Int} (num : Int) (hcount : 0 < count)

include hcount

theorem divRound_count : divRound num count =
    if count ≤ (num.tmod count).natAbs * 2 then
      if num < 0 then num.tdiv count - 1 else num.tdiv count + 1
    else num.tdiv count := by
  have hsign : ¬ count < 0 := by omega
  rw [divRound]
  simp only [ne_eq, eq_iff_iff]
  split_ifs <;> first | rfl | omega

theorem natAbs_tmod_lt : (num.tmod count).natAbs < count := by
  have := Nat.mod_lt num.natAbs (show 0 < count.natAbs by omega)
  rw [Int.natAbs_tmod]
  omega

theorem natAbs_tdiv_le (hround : count ≤ (num.tmod count).natAbs * 2) :
    2 * (num.tdiv count).natAbs ≤ num.natAbs := by
  have hlt := natAbs_tmod_lt num hcount
  have hmul := Nat.div_mul_le_self num.natAbs count.natAbs
  have htwo : 2 ≤ count.natAbs := by omega
  have hle := Nat.mul_le_mul_left (num.natAbs / count.natAbs) htwo
  have hdiv : (num.tdiv count).natAbs = num.natAbs / count.natAbs := Int.natAbs_tdiv num count
  omega

theorem avgWord_eq (hnum : -2 ^ 63 ≤ num ∧ num < 2 ^ 63) (hsmall : count < 2 ^ 62) :
    some (avgWord num count) = narrow (divRound num count) := by
  have hlt := natAbs_tmod_lt num hcount
  have hquo : (num.tdiv count).natAbs ≤ num.natAbs := by
    rw [Int.natAbs_tdiv]
    exact Nat.div_le_self num.natAbs count.natAbs
  have hsign : num ≤ 0 → num.tdiv count ≤ 0 := fun h => by
    have := Int.tdiv_nonneg (show 0 ≤ -num by omega) hcount.le
    rw [Int.neg_tdiv] at this
    omega
  have hrem : (if num.tmod count < 0 then wrap64 (-num.tmod count) else num.tmod count) =
      (num.tmod count).natAbs := by
    rw [wrap64_eq (by omega) (by omega)]
    split_ifs <;> omega
  symm
  apply narrow_of_signed
  simp only [avgWord, hrem]
  rw [divRound_count num hcount, wrap64_eq (by omega) (by omega)]
  by_cases hround : count ≤ (num.tmod count).natAbs * 2
  · have hhalf := natAbs_tdiv_le num hcount hround
    rw [wrap64_eq (by omega) (by omega),
      wrap64_eq (by omega) (by omega), signed_int128From] <;> split_ifs <;> omega
  · rw [if_neg hround, if_neg hround]
    exact signed_int128From (by omega) (by omega)

theorem avgCarrier_eq (scaled : Int128) (hhigh : count < 2 ^ 63) :
    avgCarrier scaled (int128From count) = narrow (divRound scaled.signed count) := by
  have hden : (int128From count).signed = count := signed_int128From (by omega) hhigh
  have hbounds := scaled.signed_bounds
  have hlt := natAbs_tmod_lt scaled.signed hcount
  cases hqr : quoRem scaled (int128From count) with
  | none =>
    have := quoRem_none hqr
    omega
  | some qr =>
    obtain ⟨q, rem⟩ := qr
    obtain ⟨hq, hrem⟩ := quoRem_some hqr
    rw [hden] at hq hrem
    have habs : (if rem.isNegative then rem.neg else rem).signed =
        (scaled.signed.tmod count).natAbs := by
      have hneg := signed_neg rem
      simp only [isNegative_iff_signed]
      split_ifs <;> omega
    obtain ⟨twice, htwice⟩ : ∃ w, narrow ((scaled.signed.tmod count).natAbs * 2) = some w :=
      ⟨_, if_pos ⟨by omega, by omega⟩⟩
    have hless := less_iff twice (int128From count)
    rw [narrow_eq_some_iff.mp htwice, hden] at hless
    rw [mul_two, ← habs, ← addChecked_eq] at htwice
    rw [avgCarrier, hqr, divRound_count _ hcount, eq_comm]
    apply narrow_of_signed
    simp only [htwice, ← not_lt, ← hless]
    by_cases hround : twice.less (int128From count)
    · simp [hround, hq]
    have hhalf := natAbs_tdiv_le scaled.signed hcount (not_lt.mp (mt hless.mpr hround))
    rw [← hq]
    have hone : (int128From 1).signed = 1 := by decide
    have hminus : (int128From 1).neg.signed = -1 := by decide
    simp only [isNegative_iff_signed, sub]
    split_ifs
    · rw [signed_add_of_fits (by omega) (by omega), hminus]
      rfl
    · rw [signed_add_of_fits (by omega) (by omega), hone]

end Count

theorem decimalAvg_eq (sum : Int128) {count addScale : Int} (hcount : 0 < count)
    (hhigh : count < 2 ^ 63) (hadd : 0 ≤ addScale) : decimalAvg sum count addScale =
      narrow (divRound (sum.signed * 10 ^ addScale.toNat) count) := by
  have hbig : avgBig (sum.signed * 10 ^ addScale.toNat) count =
      narrow (divRound (sum.signed * 10 ^ addScale.toNat) count) := by
    rw [avgBig, divRound_count _ hcount]
  simp only [decimalAvg, mulPow10_eq sum hadd, hbig]
  rw [if_neg (by omega)]
  cases hscaled : narrow (sum.signed * 10 ^ addScale.toNat) with
  | none => rfl
  | some d =>
    have hd := narrow_eq_some_iff.mp hscaled
    rw [Option.bind_some, avgCarrier_eq hcount d hhigh, hd]
    by_cases hword : (fitsInt64 d && decide (count < 2 ^ 62))
    · rw [Option.filter_some, if_pos hword]
      rw [Bool.and_eq_true, decide_eq_true_eq] at hword
      obtain ⟨hlow, hhigh, hvalue⟩ := fitsInt64_signed hword.1
      rw [hd] at hlow hhigh hvalue
      simp only [hvalue]
      exact avgWord_eq _ hcount ⟨hlow, hhigh⟩ hword.2
    · rw [Option.filter_some, if_neg hword]
      cases narrow (divRound (sum.signed * 10 ^ addScale.toNat) count) <;> rfl

theorem decimalAvg_exact (sum : Int128) (count addScale : Int)
    (hcount : 1 ≤ count ∧ count ≤ 2 ^ 63 - 1) (hadd : 0 ≤ addScale ∧ addScale ≤ 38) :
    let v := roundHalfAway (sum.signed * 10 ^ addScale / count)
    ((decimalAvg sum count addScale).isSome ↔ -2 ^ 127 ≤ v ∧ v < 2 ^ 127) ∧
      ∀ q ∈ decimalAvg sum count addScale, q.signed = v := by
  intro v
  have hv : decimalAvg sum count addScale = narrow v := by
    rw [decimalAvg_eq sum (by omega) (by omega) hadd.1, divRound_eq _ (by omega)]
    push_cast
    rw [← zpow_natCast, Int.toNat_of_nonneg hadd.1]
  rw [hv]
  refine ⟨?_, fun q hq => narrow_eq_some_iff.mp hq⟩
  unfold narrow
  split_ifs with hfits
  · exact iff_of_true rfl hfits
  · exact iff_of_false nofun hfits

theorem decimalAvg_exact_half :
    let v := roundHalfAway ((int128From (-5)).signed * 10 ^ (0 : Int) / (2 : Int))
    ((decimalAvg (int128From (-5)) 2 0).isSome ↔ -2 ^ 127 ≤ v ∧ v < 2 ^ 127) ∧
      ∀ q ∈ decimalAvg (int128From (-5)) 2 0, q.signed = v :=
  decimalAvg_exact (int128From (-5)) 2 0 (by decide) (by decide)

end Wadjet.Engine.Batch
