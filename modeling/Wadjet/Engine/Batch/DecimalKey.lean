import Wadjet.Data.Codes
import Wadjet.Engine.Batch.Int128

namespace Wadjet.Engine.Batch

open Wadjet.Data Wide List

-- The two loops that drop the trailing zero digits of a fraction, over one word
-- and over two.
def stripWord : Nat → Nat → Nat × Nat
  | 0, lo => (lo, 0)
  | scale + 1, lo => if lo % 10 = 0 then stripWord scale (lo / 10) else (lo, scale + 1)

def stripWords : Nat → Nat → Nat → (Nat × Nat) × Nat
  | 0, hi, lo => ((hi, lo), 0)
  | scale + 1, hi, lo =>
    let q := div64 (hi % 10) lo 10 (Nat.mod_lt _ (by decide))
    if q.2 ≠ 0 then ((hi, lo), scale + 1) else stripWords scale (hi / 10) q.1

-- The scale, the sign with the number of bytes, and the bytes of the magnitude
-- without leading zeros.
def decimalKeyBytes (neg : Bool) (hi lo scale : Nat) : List UInt8 :=
  let mag := (bigEndian 8 hi ++ bigEndian 8 lo).dropWhile (· == 0)
  let sl := UInt8.ofNat mag.length
  UInt8.ofNat scale :: (if neg then sl ||| 0x80 else sl) :: mag

variable (d : Int128)

def appendDecimalKey (scale : Int) : List UInt8 :=
  let mag := d.magnitude
  if mag.hi = 0 ∧ mag.lo = 0 then [0, 0]
  else if mag.hi = 0 then
    let r := stripWord scale.toNat mag.lo
    decimalKeyBytes d.isNegative 0 r.1 r.2
  else
    let r := stripWords scale.toNat mag.hi mag.lo
    decimalKeyBytes d.isNegative r.1.1 r.1.2 r.2

def compareInt128 (av bv : Int128) : Int :=
  if av.less bv then -1 else if bv.less av then 1 else 0

def compareInt (x y : Int) : Int :=
  if x < y then -1 else if y < x then 1 else 0

def compareDecimalBig (av : Int128) (as : Int) (bv : Int128) (bs : Int) : Int :=
  if as < bs then compareInt (av.signed * 10 ^ (bs - as).toNat) bv.signed
  else if bs < as then compareInt av.signed (bv.signed * 10 ^ (as - bs).toNat)
  else compareInt av.signed bv.signed

def compareDecimalValues (av : Int128) (as : Int) (bv : Int128) (bs : Int) : Int :=
  if as = bs then compareInt128 av bv
  else if as < bs then
    match mulPow10 av (bs - as) with
    | some scaled => compareInt128 scaled bv
    | none => compareDecimalBig av as bv bs
  else
    match mulPow10 bv (as - bs) with
    | some scaled => compareInt128 av scaled
    | none => compareDecimalBig av as bv bs

theorem compareInt_eq_zero_iff {x y : Int} : compareInt x y = 0 ↔ x = y := by
  unfold compareInt
  obtain hlt | heq | hgt := lt_trichotomy x y
  · simp [hlt, hlt.ne]
  · simp [heq]
  · simp [hgt, hgt.not_gt, hgt.ne']

theorem compareInt128_eq (av bv : Int128) : compareInt128 av bv = compareInt av.signed bv.signed := by
  unfold compareInt128 compareInt
  simp only [less_iff]

theorem compareDecimalValues_eq (av : Int128) (as : Int) (bv : Int128) (bs : Int) :
    compareDecimalValues av as bv bs =
      compareInt (av.signed * 10 ^ (bs - as).toNat) (bv.signed * 10 ^ (as - bs).toNat) := by
  unfold compareDecimalValues compareDecimalBig
  obtain hlt | heq | hgt := lt_trichotomy as bs
  · have hzero : (as - bs).toNat = 0 := by omega
    rw [if_neg hlt.ne, if_pos hlt, if_pos hlt, mulPow10_eq av (by omega), hzero, pow_zero, mul_one]
    cases hnarrow : narrow (av.signed * 10 ^ (bs - as).toNat) with
    | none => rfl
    | some scaled =>
      dsimp only
      rw [compareInt128_eq, narrow_eq_some_iff.mp hnarrow]
  · subst heq
    rw [if_pos rfl, compareInt128_eq, sub_self, Int.toNat_zero, pow_zero, mul_one, mul_one]
  · have hzero : (bs - as).toNat = 0 := by omega
    rw [if_neg hgt.ne', if_neg hgt.not_gt, if_neg hgt.not_gt, if_pos hgt,
      mulPow10_eq bv (by omega), hzero, pow_zero, mul_one]
    cases hnarrow : narrow (bv.signed * 10 ^ (as - bs).toNat) with
    | none => rfl
    | some scaled =>
      dsimp only
      rw [compareInt128_eq, narrow_eq_some_iff.mp hnarrow]

theorem compareDecimalValues_eq_zero_iff {av bv : Int128} {as bs : Nat} :
    compareDecimalValues av as bv bs = 0 ↔ av.signed * 10 ^ bs = bv.signed * 10 ^ as := by
  rw [compareDecimalValues_eq, compareInt_eq_zero_iff]
  have hscaled : ∀ {a b : Int} {m n : Nat}, m ≤ n →
      (a * 10 ^ ((n : Int) - m).toNat = b * 10 ^ ((m : Int) - n).toNat ↔ a * 10 ^ n = b * 10 ^ m) := by
    intro a b m n hle
    have h1 : ((n : Int) - m).toNat = n - m := by omega
    have h2 : ((m : Int) - n).toNat = 0 := by omega
    have h3 : (10 : Int) ^ n = 10 ^ (n - m) * 10 ^ m := by rw [← pow_add, Nat.sub_add_cancel hle]
    rw [h1, h2, pow_zero, mul_one, h3, ← mul_assoc, mul_left_inj' (pow_ne_zero m (by decide))]
  obtain hle | hle := le_total as bs
  · exact hscaled hle
  · rw [eq_comm, hscaled hle, eq_comm]

theorem stripWords_eq {scale hi lo : Nat} (hlo : lo < 2 ^ 64) :
    (stripWords scale hi lo).1.2 < 2 ^ 64 ∧ (stripWords scale hi lo).1.1 ≤ hi ∧
      ((stripWords scale hi lo).1.1 * 2 ^ 64 + (stripWords scale hi lo).1.2,
        (stripWords scale hi lo).2) = stripWord scale (hi * 2 ^ 64 + lo) := by
  induction scale generalizing hi lo with
  | zero => exact ⟨hlo, le_rfl, rfl⟩
  | succ scale ih =>
    have hlt : hi % 10 < 10 := Nat.mod_lt _ (by decide)
    have hdiv := @div64_eq (hi % 10) lo 10 hlt
    have hrem := @div64_snd_lt (hi % 10) lo 10 hlt
    have hq := div64_fst_lt hlt hlo
    rw [stripWords, stripWord]
    by_cases hzero : (div64 (hi % 10) lo 10 hlt).2 = 0
    · have hnum : (hi * 2 ^ 64 + lo) % 10 = 0 := by omega
      have hquot : (hi * 2 ^ 64 + lo) / 10 =
          hi / 10 * 2 ^ 64 + (div64 (hi % 10) lo 10 hlt).1 := by omega
      rw [if_neg (not_not.mpr hzero), if_pos hnum, hquot]
      obtain ⟨h1, h2, h3⟩ := @ih (hi / 10) _ hq
      exact ⟨h1, h2.trans (Nat.div_le_self hi 10), h3⟩
    · have hnum : (hi * 2 ^ 64 + lo) % 10 ≠ 0 := by omega
      rw [if_pos hzero, if_neg hnum]
      exact ⟨hlo, le_rfl, rfl⟩

theorem stripWord_spec (scale m : Nat) :
    (stripWord scale m).2 ≤ scale ∧
      (stripWord scale m).1 * 10 ^ (scale - (stripWord scale m).2) = m ∧
      ((stripWord scale m).2 = 0 ∨ (stripWord scale m).1 % 10 ≠ 0) := by
  induction scale generalizing m with
  | zero => exact ⟨le_rfl, Nat.mul_one m, .inl rfl⟩
  | succ scale ih =>
    rw [stripWord]
    by_cases hm : m % 10 = 0
    · rw [if_pos hm]
      obtain ⟨h1, h2, h3⟩ := ih (m / 10)
      rw [Nat.succ_sub h1, Nat.pow_succ, ← Nat.mul_assoc]
      omega
    · rw [if_neg hm, Nat.sub_self]
      exact ⟨le_rfl, Nat.mul_one m, .inr hm⟩

theorem stripped_unique {m m' s s' : Nat} (h : s = 0 ∨ m % 10 ≠ 0) (h' : s' = 0 ∨ m' % 10 ≠ 0)
    (heq : m * 10 ^ s' = m' * 10 ^ s) : m = m' ∧ s = s' := by
  have hone : ∀ {m m' s s' : Nat}, (s' = 0 ∨ m' % 10 ≠ 0) → m * 10 ^ s' = m' * 10 ^ s →
      ¬ s < s' := by
    intro m m' s s' h' heq hlt
    have hpow : 10 ^ s' = 10 ^ (s' - s - 1) * 10 * 10 ^ s := by
      rw [← Nat.pow_succ, ← Nat.pow_add]
      congr 1
      omega
    rw [hpow, ← Nat.mul_assoc, ← Nat.mul_assoc] at heq
    have hm := Nat.eq_of_mul_eq_mul_right (Nat.pow_pos (by decide)) heq
    omega
  obtain rfl : s = s' := le_antisymm (not_lt.mp (hone h heq.symm)) (not_lt.mp (hone h' heq))
  exact ⟨Nat.eq_of_mul_eq_mul_right (Nat.pow_pos (by decide)) heq, rfl⟩

theorem stripWord_eq_iff {s s' m m' : Nat} :
    stripWord s m = stripWord s' m' ↔ m * 10 ^ s' = m' * 10 ^ s := by
  obtain ⟨hle, hm, hmin⟩ := stripWord_spec s m
  obtain ⟨hle', hm', hmin'⟩ := stripWord_spec s' m'
  generalize stripWord s m = r at hle hm hmin ⊢
  generalize stripWord s' m' = r' at hle' hm' hmin' ⊢
  have hcross : m * 10 ^ s' = m' * 10 ^ s ↔ r.1 * 10 ^ r'.2 = r'.1 * 10 ^ r.2 := by
    have hpow : 10 ^ s' = 10 ^ (s' - r'.2) * 10 ^ r'.2 := by rw [← Nat.pow_add, Nat.sub_add_cancel hle']
    have hpow' : 10 ^ s = 10 ^ (s - r.2) * 10 ^ r.2 := by rw [← Nat.pow_add, Nat.sub_add_cancel hle]
    have hpos : 10 ^ (s - r.2) * 10 ^ (s' - r'.2) ≠ 0 :=
      mul_ne_zero (pow_ne_zero _ (by decide)) (pow_ne_zero _ (by decide))
    have hleft : r.1 * 10 ^ (s - r.2) * (10 ^ (s' - r'.2) * 10 ^ r'.2) =
        10 ^ (s - r.2) * 10 ^ (s' - r'.2) * (r.1 * 10 ^ r'.2) := by ring
    have hright : r'.1 * 10 ^ (s' - r'.2) * (10 ^ (s - r.2) * 10 ^ r.2) =
        10 ^ (s - r.2) * 10 ^ (s' - r'.2) * (r'.1 * 10 ^ r.2) := by ring
    rw [← hm, ← hm', hpow, hpow', hleft, hright, Nat.mul_right_inj hpos]
  rw [hcross]
  constructor
  · rintro rfl
    rfl
  · intro heq
    obtain ⟨h1, h2⟩ := stripped_unique hmin hmin' heq
    exact Prod.ext h1 h2

def canonicalDecimal (x : Int) (scale : Nat) : Bool × Nat × Nat :=
  if x = 0 then (false, 0, 0)
  else (decide (x < 0), stripWord scale x.natAbs)

def canonicalKey (c : Bool × Nat × Nat) : List UInt8 :=
  decimalKeyBytes c.1 (c.2.1 / 2 ^ 64) (c.2.1 % 2 ^ 64) c.2.2

theorem isNegative_eq : d.isNegative = decide (d.signed < 0) := by
  rw [Bool.eq_iff_iff, isNegative_iff_signed, decide_eq_true_eq]

theorem appendDecimalKey_eq (scale : Nat) :
    appendDecimalKey d scale = canonicalKey (canonicalDecimal d.signed scale) := by
  have hvalue := value_magnitude d
  have hlo := d.magnitude.lo_lt
  unfold appendDecimalKey canonicalDecimal
  rw [Int.toNat_natCast, ← hvalue, isNegative_eq]
  by_cases hzero : d.signed = 0
  · rw [if_pos hzero, if_pos]
    · decide
    · unfold value at hvalue
      omega
  · rw [if_neg hzero, if_neg]
    · by_cases hword : d.magnitude.hi = 0
      · have hv : d.magnitude.value = d.magnitude.lo := by
          unfold value
          omega
        obtain ⟨-, hm, -⟩ := stripWord_spec scale d.magnitude.lo
        have hle : (stripWord scale d.magnitude.lo).1 ≤ d.magnitude.lo := by
          refine le_trans (Nat.le_mul_of_pos_right _ (Nat.pow_pos (by decide))) hm.le
        rw [if_pos hword, hv, canonicalKey]
        dsimp only
        rw [Nat.div_eq_of_lt (by omega), Nat.mod_eq_of_lt (by omega)]
      · obtain ⟨h1, -, h3⟩ := @stripWords_eq scale d.magnitude.hi _ hlo
        have hv : d.magnitude.hi * 2 ^ 64 + d.magnitude.lo = d.magnitude.value := rfl
        rw [hv] at h3
        rw [if_neg hword, ← h3, canonicalKey]
        dsimp only
        congr 1 <;> omega
    · unfold value at hvalue
      omega

theorem scaled_eq_iff {x y : Int} {p q : Nat} (hp : 0 < p) (hq : 0 < q) (hx : x ≠ 0) (hy : y ≠ 0) :
    (x < 0 ↔ y < 0) ∧ x.natAbs * p = y.natAbs * q ↔ x * p = y * q := by
  obtain ⟨a, rfl | rfl⟩ := x.eq_nat_or_neg <;> obtain ⟨b, rfl | rfl⟩ := y.eq_nat_or_neg
  · rw [and_iff_right (by omega)]
    exact_mod_cast Iff.rfl
  iterate 2
    have hap : 0 < (a : Int) * p := by exact_mod_cast Nat.mul_pos (by omega) hp
    have hbq : 0 < (b : Int) * q := by exact_mod_cast Nat.mul_pos (by omega) hq
    exact iff_of_false (by omega) (by rw [neg_mul]; omega)
  · rw [Int.natAbs_neg, Int.natAbs_neg,
      and_iff_right (by omega), neg_mul, neg_mul, neg_inj]
    exact_mod_cast Iff.rfl

theorem stripWord_ne_zero {x : Int} (s : Nat) (hx : x ≠ 0) : (stripWord s x.natAbs).1 ≠ 0 := by
  intro hz
  obtain ⟨-, hm, -⟩ := stripWord_spec s x.natAbs
  rw [hz] at hm
  omega

theorem canonicalDecimal_eq_iff {x y : Int} {s s' : Nat} :
    canonicalDecimal x s = canonicalDecimal y s' ↔ x * 10 ^ s' = y * 10 ^ s := by
  have hpow : ∀ n : Nat, (10 : Int) ^ n ≠ 0 := fun n => pow_ne_zero n (by decide)
  unfold canonicalDecimal
  by_cases hx : x = 0
  · rw [hx, zero_mul, zero_eq_mul, or_iff_left (hpow s)]
    by_cases hy : y = 0
    · simp [hy]
    · rw [if_neg hy]
      refine iff_of_false (fun heq => stripWord_ne_zero s' hy ?_) hy
      exact (congrArg (fun c => c.2.1) heq).symm
  · rw [if_neg hx]
    by_cases hy : y = 0
    · rw [hy, zero_mul, mul_eq_zero, or_iff_left (hpow s')]
      refine iff_of_false (fun heq => stripWord_ne_zero s hx ?_) hx
      exact congrArg (fun c => c.2.1) heq
    · have hscaled := scaled_eq_iff (Nat.pow_pos (by decide) : 0 < 10 ^ s')
        (Nat.pow_pos (by decide) : 0 < 10 ^ s) hx hy
      push_cast at hscaled
      rw [if_neg hy, Prod.mk.injEq, stripWord_eq_iff, decide_eq_decide, hscaled]

def SmallDecimal (c : Bool × Nat × Nat) : Prop :=
  c.2.1 < 2 ^ 128 ∧ c.2.2 < 256

theorem canonicalDecimal_small {scale : Nat} (h : scale < 256) :
    SmallDecimal (canonicalDecimal d.signed scale) := by
  unfold canonicalDecimal
  by_cases hd : d.signed = 0
  · rw [if_pos hd]
    exact ⟨by decide, by decide⟩
  · rw [if_neg hd, ← value_magnitude]
    obtain ⟨hle, hm, -⟩ := stripWord_spec scale d.magnitude.value
    have hmag : (stripWord scale d.magnitude.value).1 ≤ d.magnitude.value :=
      le_trans (Nat.le_mul_of_pos_right _ (Nat.pow_pos (by decide))) hm.le
    exact ⟨hmag.trans_lt d.magnitude.value_lt, hle.trans_lt h⟩

theorem signedLength_injective {neg neg' : Bool} {n n' : Nat} (hn : n ≤ 16) (hn' : n' ≤ 16)
    (h : (if neg then UInt8.ofNat n ||| 0x80 else UInt8.ofNat n) =
      if neg' then UInt8.ofNat n' ||| 0x80 else UInt8.ofNat n') : neg = neg' ∧ n = n' := by
  have hall : ∀ (neg neg' : Bool) (n n' : Fin 17),
      (if neg then UInt8.ofNat n ||| 0x80 else UInt8.ofNat n) =
        (if neg' then UInt8.ofNat n' ||| 0x80 else UInt8.ofNat n') → neg = neg' ∧ n = n' := by
    decide
  obtain ⟨hneg, hlength⟩ := hall neg neg' ⟨n, by omega⟩ ⟨n', by omega⟩ h
  exact ⟨hneg, congrArg Fin.val hlength⟩

theorem tells_canonicalKey :
    Tells (fun _ c d => SmallDecimal c ∧ SmallDecimal d) canonicalKey Eq := by
  refine ⟨?_, fun _ _ => congrArg canonicalKey⟩
  rintro - ⟨neg, m, s⟩ ⟨neg', m', s'⟩ ⟨⟨hm, hs⟩, hm', hs'⟩ rest rest' - heq
  dsimp only at hm hs hm' hs'
  simp only [canonicalKey, decimalKeyBytes, cons_append, cons.injEq] at heq
  obtain ⟨hscale, hlength, heq⟩ := heq
  have hbytes : ∀ x, (((bigEndian 8 (x / 2 ^ 64) ++ bigEndian 8 (x % 2 ^ 64)).dropWhile
      (· == 0)).length) ≤ 16 := by
    intro x
    refine (dropWhile_sublist _).length_le.trans ?_
    simp [bigEndian, length_littleEndian]
  obtain ⟨rfl, hsize⟩ := signedLength_injective (hbytes m) (hbytes m') hlength
  obtain ⟨hdigits, hrest⟩ := append_inj heq hsize
  have hvalue : ∀ x, x < 2 ^ 128 → ofBytes ((bigEndian 8 (x / 2 ^ 64) ++
      bigEndian 8 (x % 2 ^ 64)).dropWhile (· == 0)) = x := by
    intro x hx
    rw [ofBytes_dropWhile, ofBytes_append, ofBytes_bigEndian (by omega), ofBytes_bigEndian (by omega)]
    simp only [bigEndian, length_reverse, length_littleEndian]
    omega
  have hscale' := congrArg UInt8.toNat hscale
  simp only [UInt8.toNat_ofNat'] at hscale'
  obtain rfl : s = s' := by omega
  have hsame := congrArg ofBytes hdigits
  rw [hvalue m hm, hvalue m' hm'] at hsame
  exact ⟨by rw [hsame], hrest⟩

theorem tells_decimalKey : Tells (fun _ p q => p.2 < 256 ∧ q.2 < 256)
    (fun p : Int128 × Nat => appendDecimalKey p.1 p.2)
    (fun p q => compareDecimalValues p.1 p.2 q.1 q.2 = 0) := by
  simp only [appendDecimalKey_eq]
  refine ((tells_canonicalKey.comap fun p : Int128 × Nat => canonicalDecimal p.1.signed p.2).mono
    fun _ p q h => ⟨canonicalDecimal_small p.1 h.1, canonicalDecimal_small q.1 h.2⟩).iff ?_
  exact compareDecimalValues_eq_zero_iff.trans canonicalDecimal_eq_iff.symm

end Wadjet.Engine.Batch
