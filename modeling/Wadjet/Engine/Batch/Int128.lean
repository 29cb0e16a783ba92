import Mathlib.Data.Nat.Bitwise
import Wadjet.Data.Wide

namespace Wadjet.Engine.Batch

open Wadjet.Data Wide

-- A signed 128-bit integer as the engine stores it: Hi is the signed reading
-- of the high word.
abbrev Int128 := Wide

def int128From (v : Int) : Int128 :=
  ofWords (if v < 0 then 2 ^ 64 - 1 else 0) (v % 2 ^ 64).toNat

def int128Min : Int128 :=
  ofWords (2 ^ 63) 0

-- The tail of every operation on magnitudes: the one magnitude of 2^127 that
-- has a value is the negative one.
def fromMagnitude (neg : Bool) (hi lo : Nat) : Option Int128 :=
  if 2 ^ 63 ≤ hi then
    if neg = false ∨ hi ≠ 2 ^ 63 ∨ lo ≠ 0 then none else some int128Min
  else some (withSign neg (ofWords hi lo))

theorem fromMagnitude_eq {neg : Bool} {hi lo : Nat} (hhi : hi < 2 ^ 64) (hlo : lo < 2 ^ 64) :
    fromMagnitude neg hi lo = narrow (if neg then -((hi * 2 ^ 64 + lo : Nat) : Int)
      else ((hi * 2 ^ 64 + lo : Nat) : Int)) := by
  unfold fromMagnitude
  by_cases hbig : 2 ^ 63 ≤ hi
  · rw [if_pos hbig]
    by_cases hmin : neg = false ∨ hi ≠ 2 ^ 63 ∨ lo ≠ 0
    · rw [if_pos hmin]
      symm
      apply narrow_eq_none
      cases neg with
      | false => simp; omega
      | true => simp at hmin ⊢; omega
    · simp only [not_or, Bool.not_eq_false, not_not] at hmin
      obtain ⟨rfl, rfl, rfl⟩ := hmin
      decide
  · rw [if_neg hbig]
    have hvalue := value_ofWords hhi hlo
    symm
    apply narrow_of_signed
    rw [signed_withSign (.inl (by omega)), hvalue]

def mul (d other : Int128) : Option Int128 :=
  let neg := decide (d.isNegative ≠ other.isNegative)
  let r := mulMag256 d.magnitude other.magnitude
  if r.1 ≠ 0 ∨ r.2.1 ≠ 0 then none else fromMagnitude neg r.2.2.1 r.2.2.2

theorem mul_eq (d other : Int128) : mul d other = narrow (d.signed * other.signed) := by
  obtain ⟨r3, r2, r1, r0, hwords, -, -, hr1, hr0, hproduct⟩ :=
    mulMag256_eq d.magnitude other.magnitude
  unfold mul
  rw [hwords, signed_mul, ← hproduct]
  by_cases hwide : r3 ≠ 0 ∨ r2 ≠ 0
  · simp only [if_pos hwide]
    symm
    apply narrow_eq_none
    split_ifs <;> omega
  · simp only [if_neg hwide]
    rw [fromMagnitude_eq hr1 hr0]
    obtain ⟨rfl, rfl⟩ : r3 = 0 ∧ r2 = 0 := by omega
    simp

def mulU64Mag (m : Nat) (d : Wide) : Option Wide :=
  let p0 := mul64 m d.lo
  let p1 := mul64 m d.hi
  if p1.1 ≠ 0 then none
  else
    let s := add64 p0.1 p1.2 0
    if s.2 ≠ 0 then none else some (ofWords s.1 p0.2)

theorem mulU64Mag_cases (m : Nat) (d : Wide) :
    mulU64Mag m d = none ∧ 2 ^ 128 ≤ m * d.value ∨
      ∃ p, mulU64Mag m d = some p ∧ p.value = m * d.value := by
  have h0 := mul64_eq m d.lo
  have h1 := mul64_eq m d.hi
  have hl0 := mul64_snd_lt m d.lo
  have hproduct : m * d.value = m * d.hi * 2 ^ 64 + m * d.lo := by
    unfold Wide.value
    ring
  simp only [mulU64Mag]
  rw [hproduct, ← h0, ← h1]
  generalize mul64 m d.lo = p0 at *
  generalize mul64 m d.hi = p1 at *
  have hs := add64_eq p0.1 p1.2 0
  have hslt := add64_fst_lt p0.1 p1.2 0
  generalize add64 p0.1 p1.2 0 = s at *
  by_cases hp1 : p1.1 ≠ 0
  · exact .inl ⟨if_pos hp1, by omega⟩
  rw [if_neg hp1]
  by_cases hs2 : s.2 ≠ 0
  · exact .inl ⟨if_pos hs2, by omega⟩
  · refine .inr ⟨_, if_neg hs2, ?_⟩
    have hmid : s.1 = p0.1 + p1.2 := by omega
    rw [value_ofWords hslt hl0, hmid, not_not.mp hp1]
    ring

def cmpMag (a b : Wide) : Int :=
  if a.hi ≠ b.hi then (if a.hi < b.hi then -1 else 1)
  else if a.lo ≠ b.lo then (if a.lo < b.lo then -1 else 1)
  else 0

theorem cmpMag_nonneg_iff (a b : Wide) : 0 ≤ cmpMag a b ↔ b.value ≤ a.value := by
  have ha := a.lo_lt
  have hb := b.lo_lt
  unfold cmpMag Wide.value
  split_ifs <;> omega

theorem cmpMag_nonpos_iff (a b : Wide) : cmpMag a b ≤ 0 ↔ a.value ≤ b.value := by
  have ha := a.lo_lt
  have hb := b.lo_lt
  unfold cmpMag Wide.value
  split_ifs <;> omega

def raiseQuotient (d : Wide) (hd : d.value ≠ 0) (qhat : Nat) (rem : Wide) : Nat × Wide :=
  if 0 ≤ cmpMag rem d then raiseQuotient d hd (qhat + 1) (rem.subMag d) else (qhat, rem)
termination_by rem.value
decreasing_by
  rename_i hcmp
  have hle := (cmpMag_nonneg_iff rem d).mp hcmp
  rw [value_subMag hle]
  omega

theorem raiseQuotient_eq (d : Wide) (hd : d.value ≠ 0) (qhat : Nat) (rem : Wide) :
    (raiseQuotient d hd qhat rem).1 * d.value + (raiseQuotient d hd qhat rem).2.value =
        qhat * d.value + rem.value ∧
      (raiseQuotient d hd qhat rem).2.value < d.value := by
  induction qhat, rem using raiseQuotient.induct d hd with
  | case1 qhat rem hcmp ih =>
    have hle := (cmpMag_nonneg_iff rem d).mp hcmp
    rw [raiseQuotient, if_pos hcmp]
    rw [value_subMag hle] at ih
    refine ⟨ih.1.trans ?_, ih.2⟩
    rw [Nat.add_mul]
    omega
  | case2 qhat rem hcmp =>
    rw [raiseQuotient, if_neg hcmp]
    exact ⟨rfl, Nat.lt_of_not_le (mt (cmpMag_nonneg_iff rem d).mpr hcmp)⟩

-- Lowers an estimate until its product is not above the dividend. The product
-- at an estimate of zero always passes.
def settleQuotient (n d : Wide) (hd : d.value ≠ 0) : Nat → Nat × Wide
  | 0 => raiseQuotient d hd 0 n
  | qhat + 1 =>
    match mulU64Mag (qhat + 1) d with
    | some p =>
      if cmpMag p n ≤ 0 then raiseQuotient d hd (qhat + 1) (n.subMag p)
      else settleQuotient n d hd qhat
    | none => settleQuotient n d hd qhat

variable (n d : Wide)

theorem settleQuotient_eq (hd : d.value ≠ 0) (qhat : Nat) :
    (settleQuotient n d hd qhat).1 * d.value + (settleQuotient n d hd qhat).2.value = n.value ∧
      (settleQuotient n d hd qhat).2.value < d.value := by
  induction qhat with
  | zero =>
    obtain ⟨heq, hlt⟩ := raiseQuotient_eq d hd 0 n
    exact ⟨by rw [settleQuotient, heq]; omega, hlt⟩
  | succ qhat ih =>
    unfold settleQuotient
    obtain ⟨hnone, -⟩ | ⟨p, hp, hvalue⟩ := mulU64Mag_cases (qhat + 1) d
    · rw [hnone]
      exact ih
    rw [hp]
    by_cases hcmp : cmpMag p n ≤ 0
    · have hle := (cmpMag_nonpos_iff p n).mp hcmp
      simp only [if_pos hcmp]
      obtain ⟨heq, hlt⟩ := raiseQuotient_eq d hd (qhat + 1) (n.subMag p)
      refine ⟨heq.trans ?_, hlt⟩
      rw [value_subMag hle]
      omega
    · simp only [if_neg hcmp]
      exact ih

def leadingZeros64 (x : Nat) : Nat :=
  if x = 0 then 64 else 63 - x.log2

theorem leadingZeros64_lt {x : Nat} (h : x ≠ 0) : leadingZeros64 x < 64 := by
  rw [leadingZeros64, if_neg h]
  omega

theorem le_shift_leadingZeros {x : Nat} (h : x ≠ 0) (hx : x < 2 ^ 64) :
    2 ^ 63 ≤ (x <<< leadingZeros64 x) % 2 ^ 64 := by
  have hlog : x.log2 < 64 := (Nat.log2_lt h).mpr hx
  have hlow := Nat.log2_self_le h
  have hhigh : x < 2 ^ (x.log2 + 1) := Nat.lt_log2_self
  rw [leadingZeros64, if_neg h, Nat.shiftLeft_eq]
  have hlower : 2 ^ 63 ≤ x * 2 ^ (63 - x.log2) := by
    calc 2 ^ 63 = 2 ^ x.log2 * 2 ^ (63 - x.log2) := by rw [← Nat.pow_add]; congr 1; omega
      _ ≤ x * 2 ^ (63 - x.log2) := Nat.mul_le_mul_right _ hlow
  have hupper : x * 2 ^ (63 - x.log2) < 2 ^ 64 := by
    calc x * 2 ^ (63 - x.log2) < 2 ^ (x.log2 + 1) * 2 ^ (63 - x.log2) :=
          Nat.mul_lt_mul_of_pos_right hhigh (Nat.two_pow_pos _)
      _ = 2 ^ 64 := by rw [← Nat.pow_add]; congr 1; omega
  rw [Nat.mod_eq_of_lt hupper]
  exact hlower

theorem shiftRight_lt_half {x sh : Nat} (hx : x < 2 ^ 64) (hsh : sh < 64) :
    x >>> (64 - sh) < 2 ^ 63 := by
  rw [Nat.shiftRight_eq_div_pow]
  refine Nat.div_lt_of_lt_mul ?_
  calc x < 2 ^ 64 := hx
    _ ≤ 2 ^ (64 - sh + 63) := Nat.pow_le_pow_right (by decide) (by omega)
    _ = 2 ^ (64 - sh) * 2 ^ 63 := Nat.pow_add ..

def estimateQuotient (hwords : d.hi ≠ 0) : Nat :=
  let sh := leadingZeros64 d.hi
  let vHi := (d.hi <<< sh) % 2 ^ 64 ||| d.lo >>> (64 - sh)
  let uHi := n.hi >>> (64 - sh)
  let uMid := (n.hi <<< sh) % 2 ^ 64 ||| n.lo >>> (64 - sh)
  (div64 uHi uMid vHi
    ((shiftRight_lt_half n.hi_lt (leadingZeros64_lt hwords)).trans_le
      ((le_shift_leadingZeros hwords d.hi_lt).trans Nat.left_le_or))).1

def IsDivision (qr : Wide × Wide) : Prop :=
  qr.1.value * d.value + qr.2.value = n.value ∧ qr.2.value < d.value

def divMag (hd : d.value ≠ 0) : Wide × Wide :=
  if hword : d.hi = 0 then
    have hpos : 0 < d.lo := by
      unfold Wide.value at hd
      omega
    if hfit : n.hi < d.lo then
      let q := div64 n.hi n.lo d.lo hfit
      (ofWords 0 q.1, ofWords 0 q.2)
    else
      let hi := div64 0 n.hi d.lo hpos
      let lo := div64 hi.2 n.lo d.lo (div64_snd_lt hpos)
      (ofWords hi.1 lo.1, ofWords 0 lo.2)
  else if cmpMag n d < 0 then (ofWords 0 0, n)
  else
    let sh := leadingZeros64 d.hi
    if sh = 0 then (ofWords 0 1, n.subMag d)
    else
      let r := settleQuotient n d hd (estimateQuotient n d hword)
      (ofWords 0 r.1, r.2)

section

variable (hd : d.value ≠ 0)

include hd

theorem divMag_word (hword : d.hi = 0) : IsDivision n d (divMag n d hd) := by
  have hnlo := n.lo_lt
  have hdlo := d.lo_lt
  have hvalue : n.value = n.hi * 2 ^ 64 + n.lo := rfl
  have hdvalue : d.value = d.lo := by
    unfold Wide.value
    omega
  have hpos : 0 < d.lo := by omega
  simp only [IsDivision, divMag, dif_pos hword, hdvalue, hvalue]
  by_cases hfit : n.hi < d.lo
  · have heq := @div64_eq n.hi n.lo d.lo hfit
    have hq := div64_fst_lt hfit hnlo
    have hr := @div64_snd_lt n.hi n.lo d.lo hfit
    simp only [dif_pos hfit]
    rw [value_ofWords (by decide) hq, value_ofWords (by decide) (by omega), Nat.zero_mul,
      Nat.zero_add, Nat.zero_add]
    exact ⟨heq, hr⟩
  · have heq := @div64_eq 0 n.hi d.lo hpos
    have hq := div64_fst_lt hpos n.hi_lt
    have hr := @div64_snd_lt 0 n.hi d.lo hpos
    simp only [dif_neg hfit]
    have heq' := @div64_eq _ n.lo d.lo hr
    have hq' := div64_fst_lt hr hnlo
    have hr' := @div64_snd_lt _ n.lo d.lo hr
    rw [value_ofWords hq hq', value_ofWords (by decide) (by omega), Nat.zero_mul, Nat.zero_add]
    refine ⟨?_, hr'⟩
    linear_combination heq' + 2 ^ 64 * heq

theorem settleQuotient_words (hwords : d.hi ≠ 0) (qhat : Nat) : IsDivision n d
      (ofWords 0 (settleQuotient n d hd qhat).1, (settleQuotient n d hd qhat).2) := by
  have hnlt := n.value_lt
  obtain ⟨heq, hlt⟩ := settleQuotient_eq n d hd qhat
  have hfit : (settleQuotient n d hd qhat).1 < 2 ^ 64 := by
    by_contra hwide
    have hbase : 2 ^ 64 ≤ d.value := by
      unfold Wide.value
      omega
    have hproduct := Nat.mul_le_mul (Nat.le_of_not_lt hwide) hbase
    omega
  rw [IsDivision, value_ofWords (by decide) hfit, Nat.zero_mul, Nat.zero_add]
  exact ⟨heq, hlt⟩

theorem divMag_words (hwords : d.hi ≠ 0) : IsDivision n d (divMag n d hd) := by
  have hnlt := n.value_lt
  simp only [divMag, dif_neg hwords]
  by_cases hcmp : cmpMag n d < 0
  · have hlt : n.value < d.value :=
      Nat.lt_of_not_le fun hle => absurd ((cmpMag_nonneg_iff n d).mpr hle) (by omega)
    rw [if_pos hcmp, IsDivision, value_ofWords (by decide) (by decide)]
    exact ⟨by simp, hlt⟩
  · have hle := (cmpMag_nonneg_iff n d).mp (by omega)
    rw [if_neg hcmp]
    by_cases hsh : leadingZeros64 d.hi = 0
    · have hhalf : 2 ^ 127 ≤ d.value := by
        have hlead := le_shift_leadingZeros hwords d.hi_lt
        rw [hsh, Nat.shiftLeft_zero] at hlead
        unfold Wide.value
        omega
      rw [if_pos hsh, IsDivision, value_ofWords (by decide) (by decide), value_subMag hle]
      omega
    · rw [if_neg hsh]
      exact settleQuotient_words n d hd hwords _

theorem divMag_value : (divMag n d hd).1.value = n.value / d.value ∧
      (divMag n d hd).2.value = n.value % d.value := by
  have hdivision : IsDivision n d (divMag n d hd) := by
    by_cases hword : d.hi = 0
    · exact divMag_word n d hd hword
    · exact divMag_words n d hd hword
  obtain ⟨heq, hlt⟩ := hdivision
  rw [Nat.mul_comm, Nat.add_comm] at heq
  obtain ⟨hq, hr⟩ := (Nat.div_mod_unique (Nat.pos_of_ne_zero hd)).mpr ⟨heq, hlt⟩
  exact ⟨hq.symm, hr.symm⟩

end

theorem magnitude_ne_zero {w : Wide} (h : ¬ w.isZero) : w.magnitude.value ≠ 0 := by
  rw [value_magnitude]
  exact fun hzero => h ((isZero_iff w).mpr (Int.natAbs_eq_zero.mp hzero))

variable (d other : Int128)

def quoRem : Option (Int128 × Int128) :=
  if hzero : other.isZero then none
  else if d = int128Min ∧ other = int128From (-1) then none
  else
    let r := divMag d.magnitude other.magnitude (magnitude_ne_zero hzero)
    some (withSign (decide (d.isNegative ≠ other.isNegative)) r.1, withSign d.isNegative r.2)

theorem tdiv_tmod_signs (m k : Nat) (mneg kneg : Bool) :
    (if mneg then -(m : Int) else m).tdiv (if kneg then -(k : Int) else k) =
        (if decide (mneg ≠ kneg) then -((m / k : Nat) : Int) else ((m / k : Nat) : Int)) ∧
      (if mneg then -(m : Int) else m).tmod (if kneg then -(k : Int) else k) =
        (if mneg then -((m % k : Nat) : Int) else ((m % k : Nat) : Int)) := by
  have hmod : ((m % k : Nat) : Int) = (m : Int).tmod k := Int.ofNat_tmod m k
  have hdiv : ((m / k : Nat) : Int) = (m : Int).tdiv k := Int.ofNat_tdiv m k
  rw [hmod]
  cases mneg <;> cases kneg <;> simp [Int.neg_tdiv, Int.tdiv_neg, Int.neg_tmod, Int.tmod_neg]

theorem int128Min_signed : int128Min.signed = -2 ^ 127 := by
  decide

theorem quoRem_none {d other : Int128} (h : quoRem d other = none) :
    other.signed = 0 ∨ d.signed = -2 ^ 127 ∧ other.signed = -1 := by
  unfold quoRem at h
  by_cases hzero : other.isZero
  · exact .inl ((isZero_iff other).mp hzero)
  rw [dif_neg hzero] at h
  by_cases hmin : d = int128Min ∧ other = int128From (-1)
  · obtain ⟨rfl, rfl⟩ := hmin
    exact .inr (by decide)
  · rw [if_neg hmin] at h
    cases h

theorem quotient_fits {d other : Int128} (hzero : ¬ other.isZero)
    (hmin : ¬ (d = int128Min ∧ other = int128From (-1))) :
    d.magnitude.value / other.magnitude.value < 2 ^ 127 ∨
      decide (d.isNegative ≠ other.isNegative) ∧
        d.magnitude.value / other.magnitude.value ≤ 2 ^ 127 := by
  have hd := value_magnitude d
  have hdbounds := d.signed_bounds
  have hother := value_magnitude other
  have hne := magnitude_ne_zero hzero
  have hle := Nat.div_le_self d.magnitude.value other.magnitude.value
  by_cases hsmall : d.magnitude.value / other.magnitude.value < 2 ^ 127
  · exact .inl hsmall
  have hleast : d.signed = -2 ^ 127 := by omega
  have hone : other.magnitude.value = 1 := by
    have hmul := Nat.div_mul_le_self d.magnitude.value other.magnitude.value
    have hbig : 2 ^ 127 ≤ d.magnitude.value / other.magnitude.value := by omega
    by_contra hmany
    have htwice : 2 ^ 127 * 2 ≤
        d.magnitude.value / other.magnitude.value * other.magnitude.value :=
      Nat.mul_le_mul hbig (by omega)
    omega
  have hpositive : other.signed = 1 := by
    by_contra hneg
    refine hmin ⟨signed_injective (hleast.trans int128Min_signed.symm), signed_injective ?_⟩
    rw [show (int128From (-1)).signed = -1 by decide]
    omega
  have hdneg := (isNegative_iff_signed d).mpr (by omega)
  have hotherneg : ¬ other.isNegative :=
    fun h => absurd ((isNegative_iff_signed other).mp h) (by omega)
  exact .inr ⟨by simp [hdneg, hotherneg], by omega⟩

theorem quoRem_some {d other q r : Int128} (h : quoRem d other = some (q, r)) :
    q.signed = d.signed.tdiv other.signed ∧ r.signed = d.signed.tmod other.signed := by
  unfold quoRem at h
  by_cases hzero : other.isZero
  · rw [dif_pos hzero] at h
    cases h
  rw [dif_neg hzero] at h
  by_cases hmin : d = int128Min ∧ other = int128From (-1)
  · rw [if_pos hmin] at h
    cases h
  rw [if_neg hmin] at h
  obtain ⟨rfl, rfl⟩ := h
  have hne := magnitude_ne_zero hzero
  obtain ⟨hq, hr⟩ := divMag_value d.magnitude other.magnitude hne
  obtain ⟨hdiv, hmod⟩ := tdiv_tmod_signs d.magnitude.value other.magnitude.value
    d.isNegative other.isNegative
  rw [← eq_withSign d, ← eq_withSign other] at hdiv hmod
  have hrest := Nat.mod_lt d.magnitude.value (Nat.pos_of_ne_zero hne)
  have hother := value_magnitude other
  have hbounds := other.signed_bounds
  refine ⟨?_, ?_⟩
  · rw [signed_withSign (by rw [hq]; exact quotient_fits hzero hmin), hq, hdiv]
  · rw [signed_withSign (.inl (by omega)), hr, hmod]

-- Division on the carrier and the word arithmetic below it.
theorem wide_division_exact :
    (∀ a b : Int128, b.signed ≠ 0 →
      (quoRem a b = none ↔ a.signed = -2 ^ 127 ∧ b.signed = -1) ∧
      ∀ q r, quoRem a b = some (q, r) →
        q.signed = a.signed.tdiv b.signed ∧ a.signed = q.signed * b.signed + r.signed ∧
        r.signed.natAbs < b.signed.natAbs ∧ (r.signed = 0 ∨ r.signed.sign = a.signed.sign)) ∧
    (∀ (n d : Wide) (hd : d.value ≠ 0), (divMag n d hd).1.value = n.value / d.value ∧
      (divMag n d hd).2.value = n.value % d.value) ∧
    (∀ a b : Wide, ∃ r3 r2 r1 r0, mulMag256 a b = (r3, r2, r1, r0) ∧
      r3 < 2 ^ 64 ∧ r2 < 2 ^ 64 ∧ r1 < 2 ^ 64 ∧ r0 < 2 ^ 64 ∧
      ((r3 * 2 ^ 64 + r2) * 2 ^ 64 + r1) * 2 ^ 64 + r0 = a.value * b.value) ∧
    ∀ (m : Nat) (d : Wide), mulU64Mag m d = none ∧ 2 ^ 128 ≤ m * d.value ∨
      ∃ p, mulU64Mag m d = some p ∧ p.value = m * d.value := by
  refine ⟨fun a b hb => ⟨⟨fun h => (quoRem_none h).resolve_left hb, ?_⟩, ?_⟩, divMag_value,
    mulMag256_eq, mulU64Mag_cases⟩
  · rintro ⟨ha, hneg⟩
    have hmin : a = int128Min := signed_injective (ha.trans int128Min_signed.symm)
    have hone : b = int128From (-1) := signed_injective (hneg.trans (by decide))
    rw [hmin, hone]
    decide
  · intro q r h
    obtain ⟨hq, hr⟩ := quoRem_some h
    rw [hq, hr]
    refine ⟨rfl, (Int.tdiv_mul_add_tmod _ _).symm, ?_, ?_⟩
    · rw [Int.natAbs_tmod]
      exact Nat.mod_lt _ (Int.natAbs_pos.mpr hb)
    · by_cases hdvd : b.signed ∣ a.signed
      · exact .inl (Int.tmod_eq_zero_of_dvd hdvd)
      · exact .inr (by rw [Int.sign_tmod, if_neg hdvd])

def pow10u64 (k : Nat) : Nat :=
  10 ^ k

-- At most nineteen digits at a time, the widest power of ten in a word.
def shiftMag (mag : Wide) (n : Nat) : Option Wide :=
  if n = 0 then some mag
  else
    let k := min n 19
    match mulU64Mag (pow10u64 k) mag with
    | some mag => shiftMag mag (n - k)
    | none => none
termination_by n

theorem shiftMag_cases (mag : Wide) (n : Nat) :
    shiftMag mag n = none ∧ 2 ^ 128 ≤ mag.value * 10 ^ n ∨
      ∃ p, shiftMag mag n = some p ∧ p.value = mag.value * 10 ^ n := by
  induction n using Nat.strong_induction_on generalizing mag with
  | _ n ih =>
    rw [shiftMag]
    by_cases hn : n = 0
    · exact .inr ⟨mag, if_pos hn, by simp [hn]⟩
    simp only [if_neg hn]
    have hsplit : 10 ^ n = 10 ^ min n 19 * 10 ^ (n - min n 19) := by
      rw [← Nat.pow_add]
      congr 1
      omega
    obtain ⟨hnone, hbig⟩ | ⟨p, hp, hvalue⟩ := mulU64Mag_cases (pow10u64 (min n 19)) mag
    · refine .inl ⟨by rw [hnone], ?_⟩
      calc 2 ^ 128 ≤ 10 ^ min n 19 * mag.value := hbig
        _ ≤ 10 ^ min n 19 * mag.value * 10 ^ (n - min n 19) :=
            Nat.le_mul_of_pos_right _ (Nat.pow_pos (by decide))
        _ = mag.value * 10 ^ n := by rw [hsplit]; ring
    · have hrest := ih (n - min n 19) (by omega) p
      have hproduct : p.value * 10 ^ (n - min n 19) = mag.value * 10 ^ n := by
        rw [hvalue, hsplit, pow10u64]
        ring
      rw [hp]
      rw [hproduct] at hrest
      exact hrest

def mulPow10 (d : Int128) (n : Int) : Option Int128 :=
  if n < 0 then none
  else if n = 0 ∨ d.isZero then some d
  else
    let neg := d.isNegative
    let mag := d.magnitude
    -- Only the least value negates to itself.
    if neg ∧ mag.isNegative then none
    else
      match shiftMag mag n.toNat with
      | none => none
      | some mag =>
        if 2 ^ 63 ≤ mag.hi then none else some (withSign neg mag)

theorem mulPow10_eq (d : Int128) {n : Int} (hn : 0 ≤ n) :
    mulPow10 d n = narrow (d.signed * 10 ^ n.toNat) := by
  simp only [mulPow10, if_neg (not_lt.mpr hn)]
  by_cases hsame : n = 0 ∨ d.isZero
  · rw [if_pos hsame]
    symm
    apply narrow_of_signed
    obtain rfl | hzero := hsame
    · simp
    · rw [(isZero_iff d).mp hzero, Int.zero_mul]
  · rw [if_neg hsame]
    obtain ⟨k, hk⟩ : ∃ k, n.toNat = k + 1 := ⟨n.toNat - 1, by omega⟩
    have hsigned : d.signed * 10 ^ n.toNat = if d.isNegative then
        -((d.magnitude.value * 10 ^ n.toNat : Nat) : Int)
        else ((d.magnitude.value * 10 ^ n.toNat : Nat) : Int) := by
      rw [eq_withSign d]
      split_ifs <;> push_cast <;> ring
    -- A multiple of ten is not a power of two, so nothing lands on the least value.
    have hten : d.magnitude.value * 10 ^ n.toNat = 10 * (d.magnitude.value * 10 ^ k) := by
      rw [hk]
      ring
    have hone : 1 ≤ 10 ^ k := Nat.pow_pos (by decide)
    rw [hsigned]
    by_cases hleast : d.isNegative ∧ d.magnitude.isNegative
    · rw [if_pos hleast]
      have hmag := (isNegative_iff _).mp hleast.2
      have hmul := Nat.le_mul_of_pos_right d.magnitude.value hone
      symm
      apply narrow_eq_none
      split_ifs <;> omega
    · rw [if_neg hleast]
      obtain ⟨hnone, hbig⟩ | ⟨p, hp, hproduct⟩ := shiftMag_cases d.magnitude n.toNat
      · rw [hnone]
        symm
        apply narrow_eq_none
        split_ifs <;> omega
      · rw [hp]
        by_cases hhigh : 2 ^ 63 ≤ p.hi
        · have hmag := (isNegative_iff p).mp (by simp only [isNegative, hhigh, decide_true])
          simp only [if_pos hhigh]
          symm
          apply narrow_eq_none
          split_ifs <;> omega
        · have hmag : ¬ 2 ^ 127 ≤ p.value := by
            rw [← isNegative_iff]
            simp only [isNegative, hhigh, decide_false, Bool.false_eq_true, not_false_eq_true]
          simp only [if_neg hhigh]
          symm
          apply narrow_of_signed
          rw [signed_withSign (.inl (by omega)), hproduct]

-- The table of powers of ten, built by shifting one place at a time. The source
-- stops with a panic should a shift overflow.
def pow10Int128 : Nat → Int128
  | 0 => int128From 1
  | i + 1 => (mulPow10 (pow10Int128 i) 1).getD (int128From 0)

theorem pow10Int128_signed {i : Nat} (h : i ≤ 38) : (pow10Int128 i).signed = 10 ^ i := by
  induction i with
  | zero => decide
  | succ i ih =>
    have hlt : (10 : Int) ^ (i + 1) ≤ 10 ^ 38 := by
      exact_mod_cast Nat.pow_le_pow_right (by decide) h
    have hnonneg : (0 : Int) ≤ 10 ^ (i + 1) := Int.pow_nonneg (by decide)
    have hshift : mulPow10 (pow10Int128 i) 1 = narrow (10 ^ (i + 1)) := by
      rw [mulPow10_eq _ (by decide), ih (by omega)]
      rfl
    obtain ⟨w, hw⟩ : ∃ w, narrow (10 ^ (i + 1)) = some w := ⟨_, if_pos ⟨by omega, by omega⟩⟩
    rw [pow10Int128, hshift, hw]
    exact narrow_eq_some_iff.mp hw

def absInt128 (v : Int128) : Option Int128 :=
  if v.isNegative = false then some v
  else if v.neg.isNegative then none else some v.neg

theorem absInt128_eq {v : Int128} (h : v.signed ≠ -2 ^ 127) :
    ∃ m, absInt128 v = some m ∧ m.signed = v.signed.natAbs := by
  have hneg := signed_neg v
  have hsign := isNegative_iff_signed v
  have hnegsign := isNegative_iff_signed v.neg
  unfold absInt128
  by_cases hv : v.isNegative = false
  · rw [hv] at hsign
    exact ⟨v, if_pos hv, by simp at hsign; omega⟩
  · rw [if_neg hv]
    rw [Bool.not_eq_false] at hv
    have hlt := hsign.mp hv
    exact ⟨v.neg, if_neg (fun hnn => absurd (hnegsign.mp hnn) (by omega)), by omega⟩

def cmp : Int :=
  if d.less other then -1 else if other.less d then 1 else 0

theorem cmp_nonneg_iff : 0 ≤ cmp d other ↔ other.signed ≤ d.signed := by
  simp only [cmp, less_iff]
  split_ifs <;> omega

end Wadjet.Engine.Batch
