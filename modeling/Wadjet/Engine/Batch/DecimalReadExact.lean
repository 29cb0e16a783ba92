import Mathlib.Data.Nat.Cast.Order.Field
import Mathlib.Data.Sign.Basic
import Wadjet.Engine.Batch.DecimalRead

namespace Wadjet.Engine.Batch

open Wadjet.Data Wide List

def withNeg (neg : Bool) (n : Nat) : Int :=
  if neg then -n else n

def Beyond (neg : Bool) (y : ℚ) : Prop :=
  if neg then 2 ^ 127 < y else 2 ^ 127 ≤ y

variable {neg : Bool} {y : ℚ}

theorem Beyond.mono {z : ℚ} (h : Beyond neg y) (hle : y ≤ z) : Beyond neg z := by
  unfold Beyond at *
  split_ifs at * <;> linarith

theorem beyond_of_digits (h : 10 ^ 39 ≤ y) : Beyond neg y := by
  unfold Beyond
  split_ifs <;> linarith

theorem narrow_withNeg_none_iff {n : Nat} :
    narrow (withNeg neg n) = none ↔ Beyond neg n := by
  have hcast : (2 : ℚ) ^ 127 = ((2 ^ 127 : Nat) : ℚ) := by norm_num
  unfold Beyond
  rw [hcast, narrow]
  unfold withNeg
  cases neg <;> simp
  omega

theorem int128FromDigits_eq {l : List UInt8} (hl : IsDigits l) (hne : l ≠ []) (neg : Bool) :
    int128FromDigits l neg = narrow (withNeg neg (ofDigits l)) := by
  unfold int128FromDigits
  by_cases hshort : l.length ≤ 19
  · have hlt : ofDigits l < 10 ^ 19 := lt_of_lt_of_le hl.value_lt (Nat.pow_le_pow_right (by decide) hshort)
    have hvalue := @value_ofWords 0 (ofDigits l) (by decide) (by omega)
    have hsigned : (ofWords 0 (ofDigits l)).signed = ofDigits l := by
      rw [signed_eq, hvalue, if_neg (by omega)]
      simp
    rw [if_pos hshort, if_neg hne, eq_comm, narrow_eq_some_iff]
    cases neg with
    | true =>
      rw [if_pos rfl, signed_neg, hsigned]
      rfl
    | false => exact hsigned
  · rw [if_neg hshort]
    rfl

def Resolves (r : ScaledDecimal) (x : ℚ) : Prop :=
  ∀ cell : Int128, r.order cell = (SignType.sign ((cell.signed : ℚ) - x) : ℤ)

theorem compareInt_sign (x y : Int) : compareInt x y = (SignType.sign ((x : ℚ) - y) : ℤ) := by
  rw [compareInt, ← Int.cast_sub, sign_intCast, sign_apply]
  simp only [sub_pos, sub_neg]
  split_ifs <;> first | rfl | omega

theorem cmp_eq (a b : Int128) : cmp a b = (SignType.sign ((a.signed : ℚ) - b.signed) : ℤ) := by
  simp only [cmp, less_iff]
  exact compareInt_sign a.signed b.signed

theorem resolves_near {v : Int128} {residual : Int} {x : ℚ} (hnear : |x - v.signed| < 1)
    (hres : residual = (SignType.sign (x - v.signed) : ℤ)) :
    Resolves { unscaled := v, residual := residual, sat := 0 } x := by
  intro cell
  obtain ⟨hlow, hhigh⟩ := abs_lt.mp hnear
  simp only [ScaledDecimal.order, cmp_eq]
  obtain hlt | heq | hgt := lt_trichotomy cell.signed v.signed
  · have hle : (cell.signed : ℚ) + 1 ≤ v.signed := by exact_mod_cast hlt
    rw [sign_neg (by linarith : (cell.signed : ℚ) - v.signed < 0),
      sign_neg (by linarith : (cell.signed : ℚ) - x < 0)]
    rfl
  · rw [heq, sub_self, hres, ← neg_sub x, Left.sign_neg]
    simp
  · have hle : (v.signed : ℚ) + 1 ≤ cell.signed := by exact_mod_cast hgt
    rw [sign_pos (by linarith : 0 < (cell.signed : ℚ) - v.signed),
      sign_pos (by linarith : 0 < (cell.signed : ℚ) - x)]
    rfl

theorem resolves_saturated (h : Beyond neg y) :
    Resolves (saturatedDecimal neg) (if neg then -y else y) := by
  intro cell
  have hbounds := cell.signed_bounds
  have hlow : (-2 ^ 127 : ℚ) ≤ cell.signed := by exact_mod_cast hbounds.1
  have hhigh : (cell.signed : ℚ) < 2 ^ 127 := by exact_mod_cast hbounds.2
  unfold Beyond at h
  cases neg with
  | true =>
    rw [if_pos rfl] at h
    rw [if_pos rfl, sign_pos (by linarith : 0 < (cell.signed : ℚ) - -y)]
    rfl
  | false =>
    rw [if_neg (by decide)] at h
    rw [if_neg (by decide), sign_neg (by linarith : (cell.signed : ℚ) - y < 0)]
    rfl

theorem resolves_cut {n d : Nat} (hd : 0 < d) {v : Int128}
    (hv : v.signed = withNeg neg (n / d)) :
    Resolves { unscaled := v, residual := if n % d = 0 then 0 else if neg then -1 else 1, sat := 0 }
      (if neg then -((n : ℚ) / d) else (n : ℚ) / d) := by
  have hdpos : (0 : ℚ) < d := by exact_mod_cast hd
  have hrest := Nat.mod_lt n hd
  have hsplit : (n : ℚ) / d = (n / d : Nat) + (n % d : Nat) / d := by
    field_simp
    have h := Nat.div_add_mod n d
    have hcast : ((d * (n / d) + n % d : Nat) : ℚ) = n := by rw [h]
    push_cast at hcast
    linarith
  have hnonneg : (0 : ℚ) ≤ (n % d : Nat) / d := by positivity
  have hbelow : ((n % d : Nat) : ℚ) / d < 1 := (div_lt_one hdpos).mpr (by exact_mod_cast hrest)
  have hsign : (SignType.sign (((n % d : Nat) : ℚ) / d) : ℤ) = if n % d = 0 then 0 else 1 := by
    by_cases hzero : n % d = 0
    · rw [hzero]
      simp
    · have hpos : (0 : ℚ) < (n % d : Nat) := by exact_mod_cast Nat.pos_of_ne_zero hzero
      rw [if_neg hzero, sign_pos (div_pos hpos hdpos)]
      rfl
  have hgap : (if neg then -((n : ℚ) / d) else (n : ℚ) / d) - v.signed =
      if neg then -(((n % d : Nat) : ℚ) / d) else ((n % d : Nat) : ℚ) / d := by
    have hcast : (v.signed : ℚ) = if neg then -((n / d : Nat) : ℚ) else ((n / d : Nat) : ℚ) := by
      rw [hv, withNeg]
      split_ifs
      · rw [Int.cast_neg, Int.cast_natCast]
      · exact Int.cast_natCast _
    rw [hcast, hsplit]
    split_ifs <;> ring
  refine resolves_near ?_ ?_
  · rw [hgap]
    cases neg <;> simp only [if_true, if_false, Bool.false_eq_true, abs_neg, abs_of_nonneg hnonneg] <;>
      exact hbelow
  · rw [hgap]
    cases neg
    · simp [hsign]
    · simp only [if_true, Left.sign_neg, SignType.coe_neg, hsign]
      split_ifs <;> rfl

def worth (digits : List UInt8) (shift : Int) : ℚ :=
  ofDigits digits * 10 ^ shift

variable {shift : Int}

theorem worth_nonneg_shift (digits : List UInt8) (h : 0 ≤ shift) :
    worth digits shift = ((ofDigits digits * 10 ^ shift.toNat : Nat) : ℚ) := by
  unfold worth
  push_cast
  rw [← zpow_natCast, Int.toNat_of_nonneg h]

theorem worth_neg_shift (digits : List UInt8) (h : shift ≤ 0) :
    worth digits shift = (ofDigits digits : ℚ) / (10 ^ (-shift).toNat : Nat) := by
  unfold worth
  push_cast
  rw [← zpow_natCast, Int.toNat_of_nonneg (by omega), zpow_neg, div_inv_eq_mul]

theorem trim_eq_nil_iff (l : List UInt8) (h : IsDigits l) :
    (l.dropWhile (· == 48)).rdropWhile (· == 48) = [] ↔ ofDigits l = 0 := by
  have hback := ofDigits_rdropWhile (l.dropWhile (· == 48))
  rw [ofDigits_dropWhile] at hback
  constructor
  · intro hnil
    rw [hnil] at hback
    rw [← hback]
    exact Nat.zero_mul _
  · intro hzero
    rw [h.value_eq_zero_iff.mp hzero]
    rfl

theorem resolves_narrow {n d : Nat} (hd : 0 < d) :
    Resolves (match narrow (withNeg neg (n / d)) with
      | none => saturatedDecimal neg
      | some v => { unscaled := v, residual := if n % d = 0 then 0 else if neg then -1 else 1, sat := 0 })
      (if neg then -((n : ℚ) / d) else (n : ℚ) / d) := by
  cases hv : narrow (withNeg neg (n / d)) with
  | none => exact resolves_saturated ((narrow_withNeg_none_iff.mp hv).mono Nat.cast_div_le)
  | some v => exact resolves_cut hd (narrow_eq_some_iff.mp hv)

section

variable {D : List UInt8} (hD : IsDigits D) (hfirst : 10 ^ (D.length - 1) ≤ ofDigits D)

include hD hfirst

theorem raisedDecimal_resolves (hnil : D ≠ []) (hshift : 0 ≤ shift) :
    Resolves (raisedDecimal neg D shift) (if neg then -worth D shift else worth D shift) := by
  rw [worth_nonneg_shift D hshift, raisedDecimal]
  by_cases hlong : (maxInt128Digits : Int) < D.length + shift
  · rw [if_pos hlong]
    refine resolves_saturated (beyond_of_digits ?_)
    have hpow : 10 ^ 39 ≤ 10 ^ (D.length - 1) * 10 ^ shift.toNat := by
      rw [← pow_add]
      exact Nat.pow_le_pow_right (by decide) (by unfold maxInt128Digits at hlong; omega)
    exact_mod_cast hpow.trans (Nat.mul_le_mul_right _ hfirst)
  · have hshifted : (int128FromDigits D neg).bind (mulPow10 · shift) =
        narrow (withNeg neg (ofDigits D * 10 ^ shift.toNat)) := by
      have hmul : ∀ w : Int128, mulPow10 w shift = narrow (w.signed * 10 ^ shift.toNat) :=
        fun w => mulPow10_eq w hshift
      simp only [int128FromDigits_eq hD hnil, hmul]
      rw [narrow_mul_bind _ (by positivity)]
      unfold withNeg
      split_ifs <;> push_cast <;> ring_nf
    have hwhole := @resolves_narrow neg (ofDigits D * 10 ^ shift.toNat) 1 one_pos
    simp only [Nat.div_one, Nat.mod_one, if_true, Nat.cast_one, div_one] at hwhole
    rw [if_neg hlong, hshifted]
    exact hwhole

theorem loweredDecimal_resolves (k : Nat) : Resolves (loweredDecimal neg D k)
    (if neg then -((ofDigits D : ℚ) / (10 ^ k : Nat)) else (ofDigits D : ℚ) / (10 ^ k : Nat)) := by
  have hd : 0 < 10 ^ k := Nat.pow_pos (by decide)
  unfold loweredDecimal
  by_cases hall : D.length ≤ k
  · have hsmall : ofDigits D < 10 ^ k := hD.value_lt.trans_le (Nat.pow_le_pow_right (by decide) hall)
    have hnonzero : ofDigits D ≠ 0 := by
      have : 0 < 10 ^ (D.length - 1) := Nat.pow_pos (by decide)
      omega
    have hcut := @resolves_cut neg (ofDigits D) (10 ^ k) hd (int128From 0)
      (by rw [Nat.div_eq_of_lt hsmall, signed_zero]; cases neg <;> rfl)
    rw [Nat.mod_eq_of_lt hsmall, if_neg hnonzero] at hcut
    rw [if_pos hall]
    exact hcut
  · obtain ⟨hkept, hrest⟩ := hD.take_drop (not_le.mp hall).le
    have hkeptDigits : IsDigits (D.take (D.length - k)) := hD.subset (take_sublist _ _).subset
    have hkeptNil : D.take (D.length - k) ≠ [] := by
      rw [← length_pos_iff, length_take]
      omega
    have hresidual := trim_eq_nil_iff _ (hD.subset (drop_sublist (D.length - k) D).subset)
    rw [hrest] at hresidual
    simp only [if_neg hall, hresidual, int128FromDigits_eq hkeptDigits hkeptNil, hkept]
    by_cases hwide : maxInt128Digits < (D.take (D.length - k)).length
    · rw [if_pos hwide]
      refine resolves_saturated ((beyond_of_digits ?_).mono Nat.cast_div_le)
      have hpow : 10 ^ 39 * 10 ^ k ≤ ofDigits D := by
        rw [← pow_add]
        refine (Nat.pow_le_pow_right (by decide) ?_).trans hfirst
        rw [length_take] at hwide
        unfold maxInt128Digits at hwide
        omega
      exact_mod_cast (Nat.le_div_iff_mul_le hd).mpr hpow
    · rw [if_neg hwide]
      exact resolves_narrow hd

end

variable {text digits : List UInt8} {exp : Int}

theorem decimalTextAt_resolves
    (hparts : decimalTextParts text = some (neg, digits, exp)) (hdigits : IsDigits digits)
    (scale : Int) : ∃ r, decimalTextAt text scale = some r ∧
      Resolves r (if neg then -worth digits (exp + scale) else worth digits (exp + scale)) := by
  have hD : IsDigits (digits.dropWhile (· == 48)) :=
    hdigits.subset (dropWhile_sublist _).subset
  have hlead := leading_dropWhile hdigits
  have hworth : ∀ shift, worth digits shift = worth (digits.dropWhile (· == 48)) shift := by
    intro shift
    rw [worth, worth, ofDigits_dropWhile]
  simp only [decimalTextAt, hparts, Option.map_some]
  refine ⟨_, rfl, ?_⟩
  rw [hworth]
  generalize exp + scale = shift
  generalize digits.dropWhile (· == 48) = D at *
  by_cases hnil : D = []
  · subst hnil
    have hzero : worth [] shift = 0 := by
      rw [worth, ofDigits]
      simp
    rw [hzero]
    refine resolves_near ?_ ?_
    all_goals
      rw [signed_zero]
      simp
  rw [if_neg hnil]
  by_cases hshift : 0 ≤ shift
  · rw [if_pos hshift]
    exact raisedDecimal_resolves hD (hlead hnil) hnil hshift
  · rw [if_neg hshift, worth_neg_shift D (by omega)]
    exact loweredDecimal_resolves hD (hlead hnil) _

theorem incrementReversed_spec (r : List UInt8) (h : IsDigits r.reverse) :
    ofDigits (incrementReversed r).reverse = ofDigits r.reverse + 1 ∧
      IsDigits (incrementReversed r).reverse ∧
      ((incrementReversed r).length = r.length ∨
        (incrementReversed r).length = r.length + 1 ∧
          ofDigits (incrementReversed r).reverse = 10 ^ r.length) := by
  induction r with
  | nil => exact ⟨rfl, by simp [incrementReversed, IsDigits], .inr ⟨rfl, rfl⟩⟩
  | cons b rest ih =>
    rw [reverse_cons] at h
    have hb := h b (by simp)
    have hrest : IsDigits rest.reverse := h.subset (sublist_append_left _ _).subset
    have hone : ∀ c : UInt8, ofDigits [c] = c.toNat - 48 := fun c => by simp [ofDigits]
    by_cases hnine : b < 57
    · have hlt : b.toNat < 57 := UInt8.lt_iff_toNat_lt.mp hnine
      have hnext : (b + 1).toNat = b.toNat + 1 := by
        rw [UInt8.toNat_add]
        exact Nat.mod_eq_of_lt (by have : (1 : UInt8).toNat = 1 := rfl; omega)
      rw [incrementReversed, if_pos hnine, reverse_cons, reverse_cons, ofDigits_append,
        ofDigits_append, hone, hone, length_singleton, length_singleton]
      refine ⟨by omega, hrest.append ?_, .inl rfl⟩
      intro x hx
      rw [mem_singleton.mp hx]
      omega
    · have hge : b.toNat = 57 := by
        have : ¬ b.toNat < 57 := fun hlt => hnine (UInt8.lt_iff_toNat_lt.mpr hlt)
        omega
      obtain ⟨hvalue, hdigits, hlength⟩ := ih hrest
      have hzero : (48 : UInt8).toNat = 48 := rfl
      rw [incrementReversed, if_neg hnine, reverse_cons, reverse_cons, ofDigits_append,
        ofDigits_append, hone, hone, hvalue, length_singleton,
        length_singleton, length_cons, length_cons]
      refine ⟨by omega, hdigits.append ?_, ?_⟩
      · intro x hx
        rw [mem_singleton.mp hx]
        omega
      · obtain hsame | ⟨hmore, hpow⟩ := hlength
        · exact .inl (by omega)
        · refine .inr ⟨by omega, ?_⟩
          rw [← hvalue, hpow]
          rfl

theorem incrementDigits_spec {d : List UInt8} (h : IsDigits d) (hlead : Leading d) :
    ofDigits (incrementDigits d) = ofDigits d + 1 ∧ IsDigits (incrementDigits d) ∧
      Leading (incrementDigits d) := by
  obtain ⟨hvalue, hdigits, hlength⟩ := incrementReversed_spec d.reverse (by rwa [reverse_reverse])
  rw [reverse_reverse, length_reverse] at *
  refine ⟨hvalue, hdigits, fun _ => ?_⟩
  rw [incrementDigits, length_reverse]
  obtain hsame | ⟨hmore, hpow⟩ := hlength
  · rw [hsame]
    by_cases hnil : d = []
    · subst hnil
      exact Nat.le_add_left _ _
    · have := hlead hnil
      omega
  · rw [hmore, hpow, Nat.add_sub_cancel]

variable {D : List UInt8}

theorem roundsUp_iff (h : IsDigits D) {k : Nat} (hk : 0 < k) (hle : k ≤ D.length) :
    53 ≤ D.getD (D.length - k) 48 ↔ 10 ^ k ≤ 2 * (ofDigits D % 10 ^ k) := by
  obtain ⟨-, hrest⟩ := h.take_drop hle
  have hlength : (D.drop (D.length - k)).length = k := by
    rw [length_drop]
    omega
  have hdigits : IsDigits (D.drop (D.length - k)) := h.subset (drop_sublist _ _).subset
  cases hcut : D.drop (D.length - k) with
  | nil =>
    rw [hcut] at hlength
    simp at hlength
    omega
  | cons c rest =>
    have hget : D.getD (D.length - k) 48 = c := by
      have hhead : (D.drop (D.length - k)).head? = some c := by rw [hcut]; rfl
      rw [head?_drop] at hhead
      rw [getD_eq_getElem?_getD, hhead]
      rfl
    rw [hcut] at hdigits hrest hlength
    have hlt := (hdigits.subset (subset_cons_self c rest)).value_lt
    obtain rfl : k = rest.length + 1 := hlength.symm
    rw [hget, ← hrest, ofDigits_cons, pow_succ]
    change 53 ≤ c.toNat ↔ _
    generalize 10 ^ rest.length = p at *
    constructor
    · intro hfive
      have : 5 * p ≤ (c.toNat - 48) * p := Nat.mul_le_mul_right _ (by omega)
      omega
    · by_contra hfour
      have : (c.toNat - 48) * p ≤ 4 * p := Nat.mul_le_mul_right _ (by omega)
      omega

def roundedWorth (n : Nat) (shift : Int) : Nat :=
  if 0 ≤ shift then n * 10 ^ shift.toNat
  else if 10 ^ (-shift).toNat ≤ 2 * (n % 10 ^ (-shift).toNat) then n / 10 ^ (-shift).toNat + 1
  else n / 10 ^ (-shift).toNat

theorem roundHalfAway_worth (digits : List UInt8) (shift : Int) (neg : Bool) :
    roundHalfAway (if neg then -worth digits shift else worth digits shift) =
      withNeg neg (roundedWorth (ofDigits digits) shift) := by
  have hround : roundHalfAway (worth digits shift) = roundedWorth (ofDigits digits) shift := by
    unfold roundedWorth
    by_cases hshift : 0 ≤ shift
    · rw [if_pos hshift, worth_nonneg_shift digits hshift, ← Int.cast_natCast,
        roundHalfAway_intCast]
    · rw [if_neg hshift, worth_neg_shift digits (by omega),
        roundHalfAway_natDiv _ (Nat.pow_pos (by decide))]
  unfold withNeg
  split_ifs
  · rw [roundHalfAway_neg, hround]
  · exact hround

theorem roundedWorth_zero (shift : Int) : roundedWorth 0 shift = 0 := by
  have hpos : 0 < 10 ^ (-shift).toNat := Nat.pow_pos (by decide)
  unfold roundedWorth
  split_ifs with hshift hround
  · exact Nat.zero_mul _
  · rw [Nat.zero_mod] at hround
    omega
  · exact Nat.zero_div _

theorem leading_take (h : IsDigits D) (hlead : Leading D) {k : Nat} (hle : k ≤ D.length) :
    Leading (D.take (D.length - k)) := by
  intro hne
  rw [(h.take_drop hle).1, length_take, Nat.le_div_iff_mul_le (Nat.pow_pos (by decide)), ← pow_add]
  rw [← length_pos_iff, length_take] at hne
  refine (Nat.pow_le_pow_right (by decide) (by omega)).trans (hlead ?_)
  exact length_pos_iff.mp (by omega)

theorem roundedWorth_short (h : IsDigits D) {shift : Int} (hshort : D.length + shift < 0) :
    roundedWorth (ofDigits D) shift = 0 := by
  have hlt := h.value_lt
  have hpow : 10 ^ D.length * 10 ≤ 10 ^ (-shift).toNat := by
    rw [← pow_succ]
    exact Nat.pow_le_pow_right (by decide) (by omega)
  rw [roundedWorth, if_neg (by omega), Nat.mod_eq_of_lt (by omega), if_neg (by omega),
    Nat.div_eq_of_lt (by omega)]

theorem roundedWorth_kept (h : IsDigits D) {shift : Int} (hshift : shift < 0)
    (hle : (-shift).toNat ≤ D.length) : roundedWorth (ofDigits D) shift =
      if 53 ≤ D.getD (D.length - (-shift).toNat) 48 then
        ofDigits (D.take (D.length - (-shift).toNat)) + 1
      else ofDigits (D.take (D.length - (-shift).toNat)) := by
  rw [roundedWorth, if_neg (by omega), (h.take_drop hle).1]
  simp only [roundsUp_iff h (by omega) hle]

def roundedDigits (D : List UInt8) (shift : Int) : List UInt8 :=
  if 0 ≤ shift then D ++ replicate shift.toNat 48
  else
    let drop := (-shift).toNat
    let up := decide (drop ≤ D.length) && decide (53 ≤ D.getD (D.length - drop) 48)
    let kept := if drop ≤ D.length then D.take (D.length - drop) else []
    if up then incrementDigits kept else kept

theorem roundedDigits_spec (h : IsDigits D) (hnil : D ≠ []) (hlead : Leading D)
    (shift : Int) : ofDigits (roundedDigits D shift) = roundedWorth (ofDigits D) shift ∧
      IsDigits (roundedDigits D shift) ∧ Leading (roundedDigits D shift) := by
  have hfirst := hlead hnil
  have hlength : 0 < D.length := length_pos_of_ne_nil hnil
  unfold roundedDigits
  by_cases hshift : 0 ≤ shift
  · rw [if_pos hshift, roundedWorth, if_pos hshift, ofDigits_append, length_replicate,
      ofDigits_zeros]
    refine ⟨rfl, h.append ?_, fun _ => ?_⟩
    · intro b hb
      rw [eq_of_mem_replicate hb]
      decide
    · rw [ofDigits_append, length_append, length_replicate, ofDigits_zeros,
        show D.length + shift.toNat - 1 = D.length - 1 + shift.toNat by omega, pow_add]
      exact Nat.mul_le_mul_right _ hfirst
  · rw [if_neg hshift]
    by_cases hle : (-shift).toNat ≤ D.length
    · have hkept : IsDigits (D.take (D.length - (-shift).toNat)) :=
        h.subset (take_sublist _ _).subset
      have hkeptLead := leading_take h hlead hle
      rw [roundedWorth_kept h (by omega) hle]
      simp only [if_pos hle, decide_eq_true hle, Bool.true_and, decide_eq_true_iff]
      split_ifs
      · exact incrementDigits_spec hkept hkeptLead
      · exact ⟨rfl, hkept, hkeptLead⟩
    · simp only [if_neg hle, decide_eq_false hle, Bool.false_and, Bool.false_eq_true, if_false]
      rw [roundedWorth_short h (by omega)]
      exact ⟨rfl, fun b hb => by simp at hb, fun hne => absurd rfl hne⟩

def reported (n : Int) : Int128 × Bool :=
  match narrow n with
  | none => (int128From 0, true)
  | some v => (v, false)

theorem reported_zero (neg : Bool) : reported (withNeg neg 0) = (int128From 0, false) := by
  have hzero : withNeg neg 0 = 0 := by cases neg <;> rfl
  rw [reported, hzero, narrow_of_signed signed_zero]

theorem reported_digits {R : List UInt8} (h : IsDigits R) (hlead : Leading R) (neg : Bool) :
    (if R = [] then (int128From 0, false)
      else if maxInt128Digits < R.length then (int128From 0, true)
      else match int128FromDigits R neg with
        | none => (int128From 0, true)
        | some out => (out, false)) = reported (withNeg neg (ofDigits R)) := by
  by_cases hnil : R = []
  · subst hnil
    exact (reported_zero neg).symm
  rw [if_neg hnil, int128FromDigits_eq h hnil]
  by_cases hlong : maxInt128Digits < R.length
  · have hnone : narrow (withNeg neg (ofDigits R)) = none := by
      rw [narrow_withNeg_none_iff]
      refine beyond_of_digits ?_
      have hpow : 10 ^ 39 ≤ ofDigits R :=
        (Nat.pow_le_pow_right (by decide) (by unfold maxInt128Digits at hlong; omega)).trans
          (hlead hnil)
      exact_mod_cast hpow
    rw [if_pos hlong, reported, hnone]
  · rw [if_neg hlong]
    rfl

theorem decimalTextRoundedAt_eq
    (hparts : decimalTextParts text = some (neg, digits, exp)) (hdigits : IsDigits digits)
    {scale : Int} (hscale : 0 ≤ scale) : decimalTextRoundedAt text scale =
      some (reported (withNeg neg (roundedWorth (ofDigits digits) (exp + scale)))) := by
  have hD : IsDigits (digits.dropWhile (· == 48)) :=
    hdigits.subset (dropWhile_sublist _).subset
  have hlead := leading_dropWhile hdigits
  rw [← ofDigits_dropWhile digits]
  simp only [decimalTextRoundedAt, if_neg (not_lt.mpr hscale), hparts, Option.map_some]
  generalize exp + scale = shift
  generalize digits.dropWhile (· == 48) = D at *
  by_cases hnil : D = []
  · subst hnil
    rw [if_pos rfl, show ofDigits [] = 0 from rfl, roundedWorth_zero, reported_zero]
  obtain ⟨hvalue, hrounded, hroundedLead⟩ := roundedDigits_spec hD hnil hlead shift
  rw [if_neg hnil, ← hvalue, ← reported_digits hrounded hroundedLead neg]
  by_cases hwide : 0 ≤ shift ∧ (maxInt128Digits : Int) < D.length + shift
  · have hlength : (roundedDigits D shift).length = D.length + shift.toNat := by
      rw [roundedDigits, if_pos hwide.1, length_append, length_replicate]
    have hne : roundedDigits D shift ≠ [] := by
      rw [← length_pos_iff]
      omega
    rw [if_pos hwide, if_neg hne, if_pos (by omega)]
  · rw [if_neg hwide]
    rfl

end Wadjet.Engine.Batch
