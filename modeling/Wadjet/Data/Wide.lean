import Mathlib.Tactic.LinearCombination
import Mathlib.Tactic.Ring
import Mathlib.Tactic.Zify

namespace Wadjet.Data

def mul64 (x y : Nat) : Nat × Nat :=
  (x * y / 2 ^ 64, x * y % 2 ^ 64)

variable (x y carry : Nat)

def add64 : Nat × Nat :=
  ((x + y + carry) % 2 ^ 64, (x + y + carry) / 2 ^ 64)

def sub64 (x y borrow : Nat) : Nat × Nat :=
  ((2 ^ 64 + x - y - borrow) % 2 ^ 64, if x < y + borrow then 1 else 0)

-- The machine stops where the quotient does not fit a word.
def div64 (hi lo y : Nat) (_ : hi < y) : Nat × Nat :=
  ((hi * 2 ^ 64 + lo) / y, (hi * 2 ^ 64 + lo) % y)

def wrap64 (v : Int) : Int :=
  Int.bmod v (2 ^ 64)

variable {v : Int}

theorem wrap64_eq (hlow : -2 ^ 63 ≤ v) (hhigh : v < 2 ^ 63) : wrap64 v = v := by
  unfold wrap64 Int.bmod
  dsimp only
  split_ifs <;> omega

theorem mul64_eq (x y : Nat) : (mul64 x y).1 * 2 ^ 64 + (mul64 x y).2 = x * y :=
  Nat.div_add_mod' (x * y) (2 ^ 64)

theorem mul64_snd_lt (x y : Nat) : (mul64 x y).2 < 2 ^ 64 :=
  Nat.mod_lt _ (by decide)

theorem add64_eq : (add64 x y carry).2 * 2 ^ 64 + (add64 x y carry).1 = x + y + carry :=
  Nat.div_add_mod' _ _

theorem add64_fst_lt : (add64 x y carry).1 < 2 ^ 64 :=
  Nat.mod_lt _ (by decide)

theorem div64_eq {hi lo y : Nat} (h : hi < y) :
    (div64 hi lo y h).1 * y + (div64 hi lo y h).2 = hi * 2 ^ 64 + lo :=
  Nat.div_add_mod' _ _

theorem div64_snd_lt {hi lo y : Nat} (h : hi < y) : (div64 hi lo y h).2 < y :=
  Nat.mod_lt _ (by omega)

theorem div64_fst_lt {hi lo y : Nat} (h : hi < y) (hlo : lo < 2 ^ 64) :
    (div64 hi lo y h).1 < 2 ^ 64 := by
  refine Nat.div_lt_of_lt_mul ?_
  calc hi * 2 ^ 64 + lo < (hi + 1) * 2 ^ 64 := by omega
    _ ≤ y * 2 ^ 64 := Nat.mul_le_mul_right _ h

structure Wide where
  hi : Nat
  lo : Nat
  hi_lt : hi < 2 ^ 64
  lo_lt : lo < 2 ^ 64
deriving DecidableEq

namespace Wide

def ofWords (hi lo : Nat) : Wide :=
  ⟨hi % 2 ^ 64, lo % 2 ^ 64, Nat.mod_lt _ (by decide), Nat.mod_lt _ (by decide)⟩

variable (w : Wide)

def value : Nat :=
  w.hi * 2 ^ 64 + w.lo

def isNegative : Bool :=
  2 ^ 63 ≤ w.hi

def signed : Int :=
  if w.isNegative then (w.value : Int) - 2 ^ 128 else w.value

def neg : Wide :=
  let lo := (2 ^ 64 - w.lo) % 2 ^ 64
  let hi := 2 ^ 64 - 1 - w.hi
  ofWords (if lo = 0 then hi + 1 else hi) lo

def add (w other : Wide) : Wide :=
  let lo := (w.lo + other.lo) % 2 ^ 64
  let hi := w.hi + other.hi
  ofWords (if lo < w.lo then hi + 1 else hi) lo

def sub (w other : Wide) : Wide :=
  w.add other.neg

def isZero : Bool :=
  w.hi = 0 && w.lo = 0

variable (w : Wide)

theorem value_lt : w.value < 2 ^ 128 := by
  have hhi := w.hi_lt
  have hlo := w.lo_lt
  unfold value
  omega

theorem value_ofWords {hi lo : Nat} (hhi : hi < 2 ^ 64) (hlo : lo < 2 ^ 64) :
    (ofWords hi lo).value = hi * 2 ^ 64 + lo := by
  simp only [ofWords, value, Nat.mod_eq_of_lt hhi, Nat.mod_eq_of_lt hlo]

theorem value_injective {w other : Wide} (h : w.value = other.value) : w = other := by
  obtain ⟨hi, lo, hhi, hlo⟩ := w
  obtain ⟨hi', lo', hhi', hlo'⟩ := other
  simp only [value] at h
  obtain rfl : hi = hi' := by omega
  obtain rfl : lo = lo' := by omega
  rfl

theorem isNegative_iff : w.isNegative ↔ 2 ^ 127 ≤ w.value := by
  have hlo := w.lo_lt
  simp only [isNegative, value, decide_eq_true_eq]
  omega

variable (w other : Wide)

theorem isNegative_eq_iff : w.isNegative = other.isNegative ↔
    (2 ^ 127 ≤ w.value ↔ 2 ^ 127 ≤ other.value) := by
  rw [Bool.eq_iff_iff, isNegative_iff, isNegative_iff]

theorem signed_eq :
    w.signed = if 2 ^ 127 ≤ w.value then (w.value : Int) - 2 ^ 128 else (w.value : Int) := by
  unfold signed
  simp only [isNegative_iff]

theorem signed_bounds : -2 ^ 127 ≤ w.signed ∧ w.signed < 2 ^ 127 := by
  have hlt := w.value_lt
  rw [signed_eq]
  split_ifs <;> omega

theorem isNegative_iff_signed : w.isNegative ↔ w.signed < 0 := by
  have hlt := w.value_lt
  rw [isNegative_iff, signed_eq]
  split_ifs <;> omega

theorem signed_injective {w other : Wide} (h : w.signed = other.signed) : w = other := by
  have hw := w.value_lt
  have hother := other.value_lt
  apply value_injective
  rw [signed_eq, signed_eq] at h
  split_ifs at h <;> omega

theorem value_neg : w.neg.value = (2 ^ 128 - w.value) % 2 ^ 128 := by
  have hhi := w.hi_lt
  have hlo := w.lo_lt
  simp only [neg, ofWords, value]
  split_ifs <;> omega

theorem value_add : (w.add other).value = (w.value + other.value) % 2 ^ 128 := by
  have hlo := w.lo_lt
  have hlo' := other.lo_lt
  simp only [add, ofWords, value]
  split_ifs <;> omega

theorem isZero_iff : w.isZero ↔ w.signed = 0 := by
  have hhi := w.hi_lt
  have hlo := w.lo_lt
  rw [signed_eq]
  simp only [isZero, value, Bool.and_eq_true, decide_eq_true_eq]
  split_ifs <;> omega

theorem signed_neg :
    w.neg.signed = if w.signed = -2 ^ 127 then -2 ^ 127 else -w.signed := by
  have hlt := w.value_lt
  rw [signed_eq, signed_eq, value_neg]
  split_ifs <;> omega

def narrow (v : Int) : Option Wide :=
  if -2 ^ 127 ≤ v ∧ v < 2 ^ 127 then
    some (ofWords ((v % 2 ^ 128).toNat / 2 ^ 64) ((v % 2 ^ 128).toNat % 2 ^ 64))
  else none

theorem narrow_signed : narrow w.signed = some w := by
  have hlt := w.value_lt
  have hmod : (w.signed % 2 ^ 128).toNat = w.value := by
    rw [signed_eq]
    split_ifs <;> omega
  rw [narrow, if_pos w.signed_bounds]
  congr 1
  apply value_injective
  rw [value_ofWords (by omega) (by omega)]
  omega

theorem narrow_of_signed {w : Wide} (h : w.signed = v) : narrow v = some w := by
  rw [← h, narrow_signed]

theorem narrow_eq_none (h : ¬ (-2 ^ 127 ≤ v ∧ v < 2 ^ 127)) : narrow v = none :=
  if_neg h

theorem narrow_eq_some_iff {w : Wide} : narrow v = some w ↔ w.signed = v := by
  constructor
  · intro h
    by_cases hbounds : -2 ^ 127 ≤ v ∧ v < 2 ^ 127
    · rw [narrow, if_pos hbounds] at h
      obtain rfl := Option.some.inj h
      rw [signed_eq, value_ofWords (by omega) (by omega)]
      split_ifs <;> omega
    · rw [narrow_eq_none hbounds] at h
      cases h
  · exact narrow_of_signed

variable (w other : Wide)

-- A sum overflows exactly when the operands share a sign and it does not.
def addChecked : Option Wide :=
  let sum := w.add other
  if w.isNegative = other.isNegative ∧ sum.isNegative ≠ w.isNegative then none else some sum

def subChecked : Option Wide :=
  let diff := w.sub other
  if w.isNegative ≠ other.isNegative ∧ diff.isNegative ≠ w.isNegative then none else some diff

theorem addChecked_eq :
    w.addChecked other = narrow (w.signed + other.signed) := by
  have hw := w.value_lt
  have hother := other.value_lt
  have hsum := value_add w other
  unfold addChecked
  simp only [Ne, isNegative_eq_iff]
  split_ifs with hover
  · symm
    apply narrow_eq_none
    rw [signed_eq, signed_eq]
    split_ifs <;> omega
  · symm
    apply narrow_of_signed
    rw [signed_eq, signed_eq, signed_eq]
    split_ifs <;> omega

theorem subChecked_eq :
    w.subChecked other = narrow (w.signed - other.signed) := by
  have hw := w.value_lt
  have hother := other.value_lt
  have hdiff : (w.sub other).value = (w.value + (2 ^ 128 - other.value) % 2 ^ 128) % 2 ^ 128 := by
    rw [sub, value_add, value_neg]
  unfold subChecked
  simp only [Ne, isNegative_eq_iff]
  split_ifs with hover
  · symm
    apply narrow_eq_none
    rw [signed_eq, signed_eq]
    split_ifs <;> omega
  · symm
    apply narrow_of_signed
    rw [signed_eq, signed_eq, signed_eq]
    split_ifs <;> omega

def magnitude (w : Wide) : Wide :=
  if w.isNegative then w.neg else w

theorem value_magnitude : w.magnitude.value = w.signed.natAbs := by
  have hw := w.value_lt
  have hneg := value_neg w
  unfold magnitude
  rw [signed_eq]
  simp only [isNegative_iff]
  split_ifs <;> omega

def withSign (negative : Bool) (w : Wide) : Wide :=
  if negative then w.neg else w

theorem signed_withSign {negative : Bool} {w : Wide}
    (h : w.value < 2 ^ 127 ∨ negative ∧ w.value ≤ 2 ^ 127) :
    (withSign negative w).signed = if negative then -(w.value : Int) else w.value := by
  have hneg := value_neg w
  unfold withSign
  cases negative with
  | false =>
    rw [if_neg Bool.false_ne_true, if_neg Bool.false_ne_true, signed_eq]
    split_ifs <;> simp at h <;> omega
  | true =>
    rw [if_pos rfl, if_pos rfl, signed_eq]
    split_ifs <;> omega

theorem eq_withSign :
    w.signed = if w.isNegative then -(w.magnitude.value : Int) else w.magnitude.value := by
  rw [value_magnitude]
  split_ifs with hnegative
  · have hlt := w.isNegative_iff_signed.mp hnegative
    omega
  · have hge : ¬ w.signed < 0 := fun hlt => hnegative (w.isNegative_iff_signed.mpr hlt)
    omega

theorem signed_mul : w.signed * other.signed =
    if decide (w.isNegative ≠ other.isNegative) then
      -((w.magnitude.value * other.magnitude.value : Nat) : Int)
    else ((w.magnitude.value * other.magnitude.value : Nat) : Int) := by
  have hw := w.eq_withSign
  have hother := other.eq_withSign
  rw [hw, hother]
  cases w.isNegative <;> cases other.isNegative <;> simp

-- The order of the source: the signed high words, then the low words.
def less : Bool :=
  if w.hi ≠ other.hi then
    (if w.isNegative then (w.hi : Int) - 2 ^ 64 else (w.hi : Int)) <
      (if other.isNegative then (other.hi : Int) - 2 ^ 64 else (other.hi : Int))
  else w.lo < other.lo

theorem less_iff : w.less other ↔ w.signed < other.signed := by
  have hhi := w.hi_lt
  have hlo := w.lo_lt
  have hhi' := other.hi_lt
  have hlo' := other.lo_lt
  unfold less signed isNegative value
  simp only [decide_eq_true_eq]
  split_ifs <;> simp only [decide_eq_true_eq] <;> omega

def subMag : Wide :=
  let lo := sub64 w.lo other.lo 0
  ofWords (sub64 w.hi other.hi lo.2).1 lo.1

theorem value_subMag {w other : Wide} (h : other.value ≤ w.value) :
    (w.subMag other).value = w.value - other.value := by
  have hhi := w.hi_lt
  have hlo := w.lo_lt
  have hlo' := other.lo_lt
  simp only [subMag, sub64, ofWords, value] at *
  split_ifs <;> omega

end Wide

def mulMag256 (a b : Wide) : Nat × Nat × Nat × Nat :=
  let p00 := mul64 a.lo b.lo
  let p01 := mul64 a.lo b.hi
  let p10 := mul64 a.hi b.lo
  let p11 := mul64 a.hi b.hi
  let s1 := add64 p00.1 p01.2 0
  let t1 := add64 s1.1 p10.2 0
  let s2 := add64 p01.1 p10.1 0
  let t2 := add64 s2.1 p11.2 0
  let u2 := add64 t2.1 (s1.2 + t1.2) 0
  ((p11.1 + (s2.2 + t2.2 + u2.2)) % 2 ^ 64, u2.1, t1.1, p00.2)

theorem mulMag256_eq (a b : Wide) : ∃ r3 r2 r1 r0, mulMag256 a b = (r3, r2, r1, r0) ∧
    r3 < 2 ^ 64 ∧ r2 < 2 ^ 64 ∧ r1 < 2 ^ 64 ∧ r0 < 2 ^ 64 ∧
    ((r3 * 2 ^ 64 + r2) * 2 ^ 64 + r1) * 2 ^ 64 + r0 = a.value * b.value := by
  have hprod : a.value * b.value = a.hi * b.hi * 2 ^ 128 + (a.lo * b.hi + a.hi * b.lo) * 2 ^ 64 +
      a.lo * b.lo := by
    unfold Wide.value
    ring
  have hlt : a.value * b.value < 2 ^ 128 * 2 ^ 128 := Nat.mul_lt_mul'' a.value_lt b.value_lt
  rw [hprod, ← mul64_eq a.lo b.lo, ← mul64_eq a.lo b.hi, ← mul64_eq a.hi b.lo,
    ← mul64_eq a.hi b.hi] at hlt
  rw [hprod, ← mul64_eq a.lo b.lo, ← mul64_eq a.lo b.hi, ← mul64_eq a.hi b.lo,
    ← mul64_eq a.hi b.hi]
  have hl00 := mul64_snd_lt a.lo b.lo
  simp only [mulMag256]
  generalize mul64 a.lo b.lo = p00 at *
  generalize mul64 a.lo b.hi = p01 at *
  generalize mul64 a.hi b.lo = p10 at *
  generalize mul64 a.hi b.hi = p11 at *
  have hs1 := add64_eq p00.1 p01.2 0
  generalize add64 p00.1 p01.2 0 = s1 at *
  have ht1 := add64_eq s1.1 p10.2 0
  have ht1lt := add64_fst_lt s1.1 p10.2 0
  generalize add64 s1.1 p10.2 0 = t1 at *
  have hs2 := add64_eq p01.1 p10.1 0
  generalize add64 p01.1 p10.1 0 = s2 at *
  have ht2 := add64_eq s2.1 p11.2 0
  generalize add64 s2.1 p11.2 0 = t2 at *
  have hu2 := add64_eq t2.1 (s1.2 + t1.2) 0
  have hu2lt := add64_fst_lt t2.1 (s1.2 + t1.2) 0
  generalize add64 t2.1 (s1.2 + t1.2) 0 = u2 at *
  refine ⟨_, _, _, _, rfl, Nat.mod_lt _ (by decide), hu2lt, ht1lt, hl00, ?_⟩
  -- The exact product is below 2^256, so the top word does not wrap.
  have htop : p11.1 + (s2.2 + t2.2 + u2.2) < 2 ^ 64 := by omega
  rw [Nat.mod_eq_of_lt htop]
  linear_combination 2 ^ 128 * hu2 + 2 ^ 128 * ht2 + 2 ^ 128 * hs2 + 2 ^ 64 * ht1 + 2 ^ 64 * hs1

-- Four words by one, a word at a time from the top; the remainder comes last.
def divWords (r : Nat × Nat × Nat × Nat) (d : Nat) (hd : 0 < d) : Nat × Nat × Nat × Nat × Nat :=
  let d0 := div64 0 r.1 d hd
  let d1 := div64 d0.2 r.2.1 d (div64_snd_lt _)
  let d2 := div64 d1.2 r.2.2.1 d (div64_snd_lt _)
  let d3 := div64 d2.2 r.2.2.2 d (div64_snd_lt _)
  (d0.1, d1.1, d2.1, d3.1, d3.2)

theorem divWords_eq {r3 r2 r1 r0 d : Nat} (hd : 0 < d) (hr1 : r1 < 2 ^ 64) (hr0 : r0 < 2 ^ 64) :
    ∃ q0 q1 q2 q3 rem, divWords (r3, r2, r1, r0) d hd = (q0, q1, q2, q3, rem) ∧
      q2 < 2 ^ 64 ∧ q3 < 2 ^ 64 ∧ rem < d ∧
      (((r3 * 2 ^ 64 + r2) * 2 ^ 64 + r1) * 2 ^ 64 + r0) / d =
        ((q0 * 2 ^ 64 + q1) * 2 ^ 64 + q2) * 2 ^ 64 + q3 ∧
      (((r3 * 2 ^ 64 + r2) * 2 ^ 64 + r1) * 2 ^ 64 + r0) % d = rem := by
  have h0 := @div64_eq 0 r3 d hd
  have hx0 := @div64_snd_lt 0 r3 d hd
  have h1 := @div64_eq _ r2 d hx0
  have hx1 := @div64_snd_lt _ r2 d hx0
  have h2 := @div64_eq _ r1 d hx1
  have hx2 := @div64_snd_lt _ r1 d hx1
  have h3 := @div64_eq _ r0 d hx2
  have hx3 := @div64_snd_lt _ r0 d hx2
  refine ⟨_, _, _, _, _, rfl, div64_fst_lt hx1 hr1, div64_fst_lt hx2 hr0, hx3, ?_⟩
  refine (Nat.div_mod_unique hd).mpr ⟨?_, hx3⟩
  linear_combination h3 + 2 ^ 64 * h2 + 2 ^ 128 * h1 + 2 ^ 192 * h0

end Wadjet.Data
