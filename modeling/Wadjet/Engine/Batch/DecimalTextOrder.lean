import Wadjet.Engine.Batch.DecimalReadExact

namespace Wadjet.Engine.Batch

open Wadjet.Data Wide List Option

def padded (n : Nat) (l : List UInt8) : Nat :=
  ofDigits l * 10 ^ (n - l.length)

variable {l : List UInt8} {n : Nat}

theorem padded_succ (h : l.length ≤ n + 1) :
    padded (n + 1) l = ((l.headD 48).toNat - 48) * 10 ^ n + padded n l.tail := by
  cases l with
  | nil => simp [padded, ofDigits]
  | cons b rest =>
    rw [length_cons] at h
    rw [padded, ofDigits_cons, length_cons,
      Nat.add_sub_add_right, Nat.add_mul, Nat.mul_assoc, ← pow_add]
    congr 3
    omega

theorem padded_lt (hl : IsDigits l) (h : l.length ≤ n) : padded n l < 10 ^ n := by
  have hpow : 10 ^ n = 10 ^ l.length * 10 ^ (n - l.length) := by
    rw [← pow_add]
    congr 1
    omega
  rw [hpow]
  exact Nat.mul_lt_mul_of_pos_right hl.value_lt (Nat.pow_pos (by decide))

theorem headD_digit (hl : IsDigits l) :
    48 ≤ (l.headD 48).toNat ∧ (l.headD 48).toNat ≤ 57 := by
  cases l with
  | nil => decide
  | cons b rest => exact hl b mem_cons_self

variable {a b : List UInt8}

theorem higher_digit {x y p q P : Nat} (hxy : x < y) (hp : p < P) : x * P + p < y * P + q := by
  have hstep : (x + 1) * P ≤ y * P := Nat.mul_le_mul_right P hxy
  rw [Nat.add_mul] at hstep
  omega

theorem compareDigits_eq (n : Nat) (ha : IsDigits a) (hb : IsDigits b)
    (hla : a.length ≤ n) (hlb : b.length ≤ n) :
    compareDigits n a b = compareInt (padded n a) (padded n b) := by
  induction n generalizing a b with
  | zero =>
    obtain rfl : a = [] := length_eq_zero_iff.mp (by omega)
    obtain rfl : b = [] := length_eq_zero_iff.mp (by omega)
    rfl
  | succ n ih =>
    have hx := headD_digit ha
    have hy := headD_digit hb
    have hta : a.tail.length ≤ n := by rw [length_tail]; omega
    have htb : b.tail.length ≤ n := by rw [length_tail]; omega
    have hpa := padded_lt ha.tail hta
    have hpb := padded_lt hb.tail htb
    rw [compareDigits, padded_succ hla, padded_succ hlb]
    generalize a.headD 48 = x at *
    generalize b.headD 48 = y at *
    simp only [compareInt, Nat.cast_lt, UInt8.lt_iff_toNat_lt]
    obtain hlt | heq | hgt := lt_trichotomy x.toNat y.toNat
    · rw [if_pos fun h => hlt.ne (congrArg _ h), if_pos hlt, if_pos (higher_digit (by omega) hpa)]
    · obtain rfl := UInt8.toNat_inj.mp heq
      rw [if_neg (by simp), ih ha.tail hb.tail hta htb]
      simp only [compareInt, Nat.cast_lt, add_lt_add_iff_left]
    · have hmore := @higher_digit _ _ _ (padded n a.tail) _ (by omega : y.toNat - 48 < x.toNat - 48) hpb
      rw [if_pos fun h => hgt.ne' (congrArg _ h), if_neg hgt.le.not_gt, if_neg hmore.le.not_gt,
        if_pos hmore]

theorem sign_mul_pos {x c : ℚ} (hc : 0 < c) : SignType.sign (x * c) = SignType.sign x := by
  rw [sign_mul, sign_pos hc, mul_one]

theorem worth_padded {exp : Int} (h : l.length ≤ n) :
    worth l exp = padded n l * 10 ^ (l.length + exp - n) := by
  have hten : (10 : ℚ) ≠ 0 := by norm_num
  unfold worth padded
  push_cast
  rw [mul_assoc, ← zpow_natCast, ← zpow_add₀ hten]
  congr 2
  omega

theorem worth_lt (hl : IsDigits l) (exp : Int) :
    worth l exp < 10 ^ (l.length + exp) := by
  have hten : (10 : ℚ) ≠ 0 := by norm_num
  have hpos : (0 : ℚ) < 10 ^ exp := zpow_pos (by norm_num) _
  rw [zpow_add₀ hten]
  exact mul_lt_mul_of_pos_right (by exact_mod_cast hl.value_lt) hpos

theorem le_worth (hlead : Leading l) (hnil : l ≠ []) (exp : Int) :
    (10 : ℚ) ^ (l.length + exp - 1) ≤ worth l exp := by
  have hten : (10 : ℚ) ≠ 0 := by norm_num
  have hpos : (0 : ℚ) < 10 ^ exp := zpow_pos (by norm_num) _
  have hlength : 0 < l.length := length_pos_of_ne_nil hnil
  have hsplit : (10 : ℚ) ^ (l.length + exp - 1) = 10 ^ (l.length - 1) * 10 ^ exp := by
    rw [← zpow_natCast, ← zpow_add₀ hten]
    congr 1
    omega
  rw [hsplit]
  exact mul_le_mul_of_nonneg_right (by exact_mod_cast hlead hnil) hpos.le

variable {aExp bExp : Int}

theorem compareDecimalMagnitudes_eq (ha : IsDigits a)
    (hb : IsDigits b) (hla : Leading a) (hlb : Leading b) (hna : a ≠ []) (hnb : b ≠ []) :
    compareDecimalMagnitudes a aExp b bExp =
      (SignType.sign (worth a aExp - worth b bExp) : ℤ) := by
  have habove : ∀ {h h' : Int}, h < h' → (10 : ℚ) ^ h ≤ 10 ^ (h' - 1) := fun h =>
    zpow_le_zpow_right₀ (by norm_num) (by omega)
  simp only [compareDecimalMagnitudes]
  obtain hlt | heq | hgt := lt_trichotomy ((a.length : Int) + aExp) (b.length + bExp)
  · have hless := ((worth_lt ha aExp).trans_le (habove hlt)).trans_le (le_worth hlb hnb bExp)
    rw [if_pos hlt.ne, if_pos hlt, sign_neg (by linarith)]
    rfl
  · have hscale : (0 : ℚ) < 10 ^ ((b.length : Int) + bExp - (max a.length b.length : Nat)) :=
      zpow_pos (by norm_num) _
    rw [if_neg (by omega), compareDigits_eq _ ha hb (le_max_left _ _) (le_max_right _ _),
      compareInt_sign, worth_padded (le_max_left a.length b.length),
      worth_padded (le_max_right a.length b.length), heq, ← sub_mul, sign_mul_pos hscale]
    rfl
  · have hmore := ((worth_lt hb bExp).trans_le (habove hgt)).trans_le (le_worth hla hna aExp)
    rw [if_pos hgt.ne', if_neg (by omega), sign_pos (by linarith)]
    rfl

variable {digits : List UInt8}

theorem trimDecimalDigits_spec (h : IsDigits digits) (exp : Int) :
    worth (trimDecimalDigits digits exp).1 (trimDecimalDigits digits exp).2 = worth digits exp ∧
      IsDigits (trimDecimalDigits digits exp).1 ∧ Leading (trimDecimalDigits digits exp).1 ∧
      ((trimDecimalDigits digits exp).1 = [] ↔ ofDigits digits = 0) := by
  have hten : (10 : ℚ) ≠ 0 := by norm_num
  have hlead := leading_dropWhile h
  have hD : IsDigits (digits.dropWhile (· == 48)) := h.subset (dropWhile_sublist _).subset
  have hnil := trim_eq_nil_iff digits h
  simp only [trimDecimalDigits]
  rw [← ofDigits_dropWhile] at hnil
  have hvalue : worth digits exp = worth (digits.dropWhile (· == 48)) exp := by
    rw [worth, worth, ofDigits_dropWhile]
  rw [hvalue, ← ofDigits_dropWhile digits]
  generalize digits.dropWhile (· == 48) = D at *
  have hback := ofDigits_rdropWhile D
  have hprefix := ( rdropWhile_prefix (· == 48) D).length_le
  refine ⟨?_, hD.subset ( rdropWhile_prefix _ D).subset, ?_, hnil⟩
  · rw [worth, worth, ← hback, zpow_add₀ hten, zpow_natCast]
    push_cast
    ring
  · intro hne
    have hpos : 0 < (D.rdropWhile (· == 48)).length := length_pos_of_ne_nil hne
    have hfirst := hlead fun hempty => by
      rw [hempty] at hne
      exact hne rfl
    rw [← hback, show D.length - 1 = (D.rdropWhile (· == 48)).length - 1 +
      (D.length - (D.rdropWhile (· == 48)).length) by omega, pow_add] at hfirst
    exact Nat.le_of_mul_le_mul_right hfirst (Nat.pow_pos (by decide))

theorem worth_pos {exp : Int} (h : ofDigits digits ≠ 0) : 0 < worth digits exp :=
  mul_pos (by exact_mod_cast Nat.pos_of_ne_zero h) (zpow_pos (by norm_num) _)

theorem worth_zero {exp : Int} (h : ofDigits digits = 0) : worth digits exp = 0 := by
  rw [worth, h]
  simp

theorem compareDecimalTexts_eq {aDigits bDigits : List UInt8} {aNeg bNeg : Bool}
    (ha : decimalTextParts a = some (aNeg, aDigits, aExp))
    (hb : decimalTextParts b = some (bNeg, bDigits, bExp)) (hda : IsDigits aDigits)
    (hdb : IsDigits bDigits) (hka : decimalSpecialText a = .finite)
    (hkb : decimalSpecialText b = .finite) : compareDecimalTexts a b = some ((SignType.sign
      ((if aNeg then -worth aDigits aExp else worth aDigits aExp) -
        (if bNeg then -worth bDigits bExp else worth bDigits bExp)) : ℤ)) := by
  obtain ⟨hwa, hta, hla, hza⟩ := trimDecimalDigits_spec hda aExp
  obtain ⟨hwb, htb, hlb, hzb⟩ := trimDecimalDigits_spec hdb bExp
  have hcompare := @compareDecimalMagnitudes_eq _ _ (trimDecimalDigits aDigits aExp).2
    (trimDecimalDigits bDigits bExp).2 hta htb hla hlb
  simp only [compareDecimalTexts, hka, hkb, ne_eq, not_true_eq_false, false_and, if_false, ha, hb,
    hza, hzb]
  rw [hwa, hwb] at hcompare
  by_cases hA : ofDigits aDigits = 0 <;> by_cases hB : ofDigits bDigits = 0
  · simp [hA, hB, worth_zero]
  · have hpos := @worth_pos bDigits bExp hB
    cases bNeg <;> simp [hA, hB, worth_zero, Left.sign_neg, sign_pos hpos]
  · have hpos := @worth_pos aDigits aExp hA
    cases aNeg <;> simp [hA, hB, worth_zero, Left.sign_neg, sign_pos hpos]
  · have hposA := @worth_pos aDigits aExp hA
    have hposB := @worth_pos bDigits bExp hB
    rw [if_neg (by tauto), if_neg hA, if_neg hB, hcompare (mt hza.mp hA) (mt hzb.mp hB)]
    cases aNeg <;> cases bNeg
    · simp
    · simp [sign_pos (add_pos hposA hposB)]
    · simp [sign_neg (by linarith : -worth aDigits aExp - worth bDigits bExp < 0)]
    · simp only [not_true_eq_false, if_true, if_false]
      rw [neg_sub_neg, ← neg_sub, Left.sign_neg, SignType.coe_neg, neg_neg]

variable (s : List UInt8)

def bare : List UInt8 :=
  (s.dropWhile isDecimalSpace).rdropWhile isDecimalSpace

def mantissa : List UInt8 :=
  (unsigned (bare s)).takeWhile (!isExponentMark ·)

def writtenExponent : Int :=
  match (unsigned (bare s)).dropWhile (!isExponentMark ·) with
  | [] => 0
  | _ :: e => withNeg (e.head? == some 45) (ofDigits (unsigned e))

def named : ℚ :=
  (if (bare s).head? = some 45 then -1 else 1) *
    ofDigits (beforePoint (mantissa s) ++ afterPoint (mantissa s)) *
    10 ^ (writtenExponent s - (afterPoint (mantissa s)).length)

theorem isDigits_of_all (h : l.all isDigit) : IsDigits l := by
  intro b hb
  have hdigit := all_eq_true.mp h b hb
  simpa [isDigit] using hdigit

theorem clamped_foldl (l : List UInt8) (v : Nat)
    (h : v * 10 ^ l.length + ofDigits l ≤ maxDecimalExponent) :
    l.foldl (fun v c => if v ≤ maxDecimalExponent then v * 10 + (c.toNat - 48) else v) v =
      v * 10 ^ l.length + ofDigits l := by
  induction l generalizing v with
  | nil => simp [ofDigits]
  | cons c l ih =>
    have hstep : v * 10 ^ (l.length + 1) + ofDigits (c :: l) =
        (v * 10 + (c.toNat - 48)) * 10 ^ l.length + ofDigits l := by
      rw [ofDigits_cons]
      ring
    rw [length_cons, hstep] at h ⊢
    have hle : v ≤ maxDecimalExponent := by
      have hpos : 1 ≤ 10 ^ l.length := Nat.one_le_pow _ _ (by decide)
      have := Nat.mul_le_mul_left (v * 10 + (c.toNat - 48)) hpos
      omega
    rw [foldl_cons, if_pos hle, ih _ h]

theorem decimalExponent_eq {e : List UInt8} {x : Int} (h : decimalExponent e = some x)
    (hrange : (withNeg (e.head? == some 45) (ofDigits (unsigned e))).natAbs ≤ maxDecimalExponent) :
    x = withNeg (e.head? == some 45) (ofDigits (unsigned e)) := by
  have hle : ofDigits (unsigned e) ≤ maxDecimalExponent := by
    unfold withNeg at hrange
    split_ifs at hrange <;> omega
  have hfold := clamped_foldl (unsigned e) 0 (by rwa [Nat.zero_mul, Nat.zero_add])
  rw [Nat.zero_mul, Nat.zero_add] at hfold
  simp only [decimalExponent, hfold, Nat.min_eq_left hle] at h
  obtain ⟨-, h⟩ := ite_none_left_eq_some.mp h
  rw [← some.inj h, withNeg]
  simp

variable {s : List UInt8} {neg : Bool}

theorem decimalTextParts_inv {exp : Int} (h : decimalTextParts s = some (neg, digits, exp)) :
    ∃ e, exponentOf (unsigned (bare s)) = some e ∧
      (beforePoint (mantissa s)).all isDigit ∧ (afterPoint (mantissa s)).all isDigit ∧
      (beforePoint (mantissa s)).length + (afterPoint (mantissa s)).length ≠ 0 ∧
      neg = ((bare s).head? == some 45) ∧
      digits = beforePoint (mantissa s) ++ afterPoint (mantissa s) ∧
      exp = e - (afterPoint (mantissa s)).length := by
  simp only [decimalTextParts, decimalTextSplit, map_eq_some_iff, bind_eq_some_iff] at h
  obtain ⟨parts, ⟨e, he, hsplit⟩, hparts⟩ := h
  obtain ⟨hgood, hsplit⟩ := ite_none_left_eq_some.mp hsplit
  obtain rfl := some.inj hsplit
  simp only [Prod.mk.injEq] at hparts
  simp only [not_or, Bool.not_eq_false] at hgood
  exact ⟨e, he, hgood.1, hgood.2.1, hgood.2.2, hparts.1.symm, hparts.2.1.symm, hparts.2.2.symm⟩

theorem exponentOf_eq {e : Int} (h : exponentOf (unsigned (bare s)) = some e)
    (hrange : (writtenExponent s).natAbs ≤ maxDecimalExponent) : e = writtenExponent s := by
  unfold exponentOf at h
  unfold writtenExponent at hrange ⊢
  cases hmark : (unsigned (bare s)).dropWhile (!isExponentMark ·) with
  | nil =>
    rw [hmark] at h
    exact (some.inj h).symm
  | cons c rest =>
    rw [hmark] at h hrange
    exact decimalExponent_eq h hrange

theorem named_of_parts {exp : Int} (h : decimalTextParts s = some (neg, digits, exp))
    (hrange : (writtenExponent s).natAbs ≤ maxDecimalExponent) :
    IsDigits digits ∧ named s = if neg then -worth digits exp else worth digits exp := by
  obtain ⟨e, he, hip, hfp, -, rfl, rfl, rfl⟩ := decimalTextParts_inv h
  refine ⟨(isDigits_of_all hip).append (isDigits_of_all hfp), ?_⟩
  rw [named, worth, exponentOf_eq he hrange]
  simp only [beq_iff_eq]
  split_ifs <;> ring

theorem head_mantissa (hdigits : (beforePoint (mantissa s)).all isDigit)
    (hne : mantissa s ≠ []) :
    ∃ c rest, unsigned (bare s) = c :: rest ∧ isSpecialMark c = false := by
  have hprefix : mantissa s <+: unsigned (bare s) := takeWhile_prefix _
  cases hm : mantissa s with
  | nil => exact absurd hm hne
  | cons c m =>
    obtain ⟨rest, hrest⟩ := hprefix
    rw [hm] at hrest
    refine ⟨c, _, hrest.symm, ?_⟩
    rw [hm] at hdigits
    by_cases hpoint : c = 46
    · subst hpoint
      rfl
    have hbefore : beforePoint (c :: m) = c :: m.takeWhile (· != 46) :=
      takeWhile_cons_of_pos (by simpa using hpoint)
    have hmarks : ∀ c ∈ ([110, 78, 105, 73] : List UInt8), isDigit c = false := by simp [isDigit]
    rw [hbefore, all_cons, Bool.and_eq_true] at hdigits
    exact decide_eq_false fun hmark => by simp_all

theorem unsigned_append (d : UInt8) (ds tail : List UInt8) :
    unsigned (d :: ds ++ tail) = unsigned (d :: ds) ++ tail := by
  have hhead : (d :: ds ++ tail).head? = (d :: ds).head? := rfl
  rw [unsigned, unsigned, hhead]
  split_ifs <;> rfl

theorem decimalSpecialText_of_parts {exp : Int}
    (h : decimalTextParts s = some (neg, digits, exp)) : decimalSpecialText s = .finite := by
  obtain ⟨-, -, hip, -, hsome, -⟩ := decimalTextParts_inv h
  obtain ⟨c, rest, hhead, hmark⟩ := head_mantissa hip fun hnil => by
    rw [hnil] at hsome
    exact hsome rfl
  have hspecial : mayBeDecimalSpecial s = false := by
    obtain ⟨tail, htail⟩ := rdropWhile_prefix isDecimalSpace (s.dropWhile isDecimalSpace)
    change bare s ++ tail = _ at htail
    have hbare : bare s ≠ [] := by
      intro hnil
      rw [hnil] at hhead
      cases hhead
    obtain ⟨d, ds, hd⟩ := exists_cons_of_ne_nil hbare
    rw [mayBeDecimalSpecial, ← htail, hd, unsigned_append, ← hd, hhead, cons_append,
      head?_cons]
    exact hmark
  rw [decimalSpecialText, if_pos hspecial]

end Wadjet.Engine.Batch
