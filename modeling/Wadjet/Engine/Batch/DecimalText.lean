import Mathlib.Data.List.DropRight
import Wadjet.Data.Digits
import Wadjet.Engine.Batch.DecimalKey

namespace Wadjet.Engine.Batch

open Wadjet.Data Wide List

def absDigits (d : Int128) : List UInt8 :=
  decimalDigits d.signed.natAbs

def formatDecimal (d : Int128) (scale : Int) : List UInt8 :=
  if scale ≤ 0 then intText d.signed
  else
    let digits := absDigits d
    let cut := digits.length - scale.toNat
    let body :=
      if scale.toNat < digits.length then digits.take cut ++ 46 :: digits.drop cut
      else 48 :: 46 :: (replicate (scale.toNat - digits.length) 48 ++ digits)
    if d.isNegative then 45 :: body else body

def isDigit (b : UInt8) : Bool :=
  48 ≤ b.toNat && b.toNat ≤ 57

variable (s : List UInt8)

def beforePoint : List UInt8 :=
  s.takeWhile (· != 46)

def afterPoint : List UInt8 :=
  (s.dropWhile (· != 46)).drop 1

def isDecimalSpace (c : UInt8) : Bool :=
  c ∈ ([32, 9, 10, 11, 12, 13] : List UInt8)

def isExponentMark (c : UInt8) : Bool :=
  c == 101 || c == 69

def unsigned : List UInt8 :=
  if s.head? = some 45 ∨ s.head? = some 43 then s.drop 1 else s

def maxDecimalExponent : Nat :=
  2 ^ 30

def decimalExponent : Option Int :=
  let digits := unsigned s
  if digits = [] ∨ digits.all isDigit = false then none
  else
    let v := digits.foldl (fun v c => if v ≤ maxDecimalExponent then v * 10 + (c.toNat - 48) else v) 0
    let v := min v maxDecimalExponent
    some (if s.head? = some 45 then -v else v)

def exponentOf : Option Int :=
  match s.dropWhile (!isExponentMark ·) with
  | [] => some 0
  | _ :: e => decimalExponent e

def decimalTextSplit : Option (Bool × List UInt8 × List UInt8 × Int) :=
  let s := (s.dropWhile isDecimalSpace).rdropWhile isDecimalSpace
  let body := unsigned s
  (exponentOf body).bind fun exp =>
    let mantissa := body.takeWhile (!isExponentMark ·)
    let ip := beforePoint mantissa
    let fp := afterPoint mantissa
    if ip.all isDigit = false ∨ fp.all isDigit = false ∨ ip.length + fp.length = 0 then none
    else some (s.head? == some 45, ip, fp, exp - fp.length)

def decimalTextParts : Option (Bool × List UInt8 × Int) :=
  (decimalTextSplit s).map fun p => (p.1, p.2.1 ++ p.2.2.1, p.2.2.2)

def canonicalDecimalText : Option (List UInt8) :=
  (decimalTextParts s).map fun p =>
    let digits := p.2.1.dropWhile (· == 48)
    let kept := digits.rdropWhile (· == 48)
    if kept = [] then [48]
    else (if p.1 then [45] else []) ++ kept ++ 101 :: intText (p.2.2 + (digits.length - kept.length : Nat))

def plainBody (m s : Nat) : List UInt8 :=
  decimalDigits (m / 10 ^ s) ++ if s = 0 then [] else 46 :: fixedDigits s m

def plainText (neg : Bool) (m s : Nat) : List UInt8 :=
  (if neg then [45] else []) ++ plainBody m s

theorem pointed_digits {scale : Nat} (hpos : 0 < scale) (m : Nat) :
    (if scale < (decimalDigits m).length then
      (decimalDigits m).take ((decimalDigits m).length - scale) ++
        46 :: (decimalDigits m).drop ((decimalDigits m).length - scale)
    else 48 :: 46 :: (replicate (scale - (decimalDigits m).length) 48 ++ decimalDigits m)) =
      decimalDigits (m / 10 ^ scale) ++ 46 :: fixedDigits scale m := by
  have hle := @length_decimalDigits_le scale m hpos
  by_cases hlong : scale < (decimalDigits m).length
  · have hsplit := @decimalDigits_split scale m (by omega)
    have hlength : (decimalDigits m).length - scale = (decimalDigits (m / 10 ^ scale)).length := by
      rw [hsplit, length_append, length_fixedDigits, Nat.add_sub_cancel]
    rw [if_pos hlong, hlength, hsplit, take_left, drop_left]
  · have hlt : m < 10 ^ scale := hle.mp (not_lt.mp hlong)
    rw [if_neg hlong, fixedDigits_pad hpos hlt, Nat.div_eq_of_lt hlt,
      decimalDigits_of_lt (by decide : 0 < 10)]
    rfl

theorem formatDecimal_eq (d : Int128) (scale : Nat) :
    formatDecimal d scale = plainText d.isNegative d.signed.natAbs scale := by
  have hneg := d.isNegative_iff_signed
  unfold formatDecimal plainText plainBody absDigits
  by_cases hzero : scale = 0
  · subst hzero
    rw [if_pos (by decide), if_pos rfl, Nat.pow_zero, Nat.div_one, append_nil, intText]
    cases hn : d.isNegative <;> simp_all
  · rw [if_neg (by omega), Int.toNat_natCast]
    dsimp only
    rw [pointed_digits (Nat.pos_of_ne_zero hzero), if_neg hzero]
    cases d.isNegative <;> rfl

theorem not_mem_decimalDigits {b : UInt8} (hb : b.toNat < 48 ∨ 57 < b.toNat) (n : Nat) :
    b ∉ decimalDigits n := by
  intro hmem
  have := isDigit_decimalDigits n hmem
  omega

theorem head_plainBody (m s : Nat) : ∃ b rest, plainBody m s = b :: rest ∧ 48 ≤ b.toNat ∧ b.toNat ≤ 57 := by
  cases hdigits : decimalDigits (m / 10 ^ s) with
  | nil => exact absurd hdigits (decimalDigits_ne_nil _)
  | cons b rest =>
    exact ⟨b, _, by rw [plainBody, hdigits]; rfl,
      isDigit_decimalDigits _ (hdigits ▸ mem_cons_self)⟩

theorem head_plainBody_ne {m s : Nat} {c : UInt8} (hc : c.toNat < 48) :
    (plainBody m s).head? ≠ some c := by
  obtain ⟨b, rest, hbody, hlow, -⟩ := head_plainBody m s
  rw [hbody]
  intro h
  cases h
  omega

variable {m' s' : Nat}

theorem plainBody_injective {m s : Nat} (h : plainBody m s = plainBody m' s') :
    m = m' ∧ s = s' := by
  have htail : ∀ m s : Nat, (if s = 0 then [] else 46 :: fixedDigits s m) = ([] : List UInt8) ∨
      ∃ l, (if s = 0 then [] else 46 :: fixedDigits s m) = 46 :: l := by
    intro m s
    by_cases hs : s = 0
    · exact .inl (if_pos hs)
    · exact .inr ⟨_, if_neg hs⟩
  obtain ⟨hint, hfrac⟩ := text_split (not_mem_decimalDigits (.inl (by decide)) _)
    (not_mem_decimalDigits (.inl (by decide)) _) (htail m s) (htail m' s') h
  have hquot := decimalDigits_injective hint
  by_cases hs : s = 0 <;> by_cases hs' : s' = 0
  · subst hs hs'
    rw [Nat.pow_zero, Nat.div_one, Nat.div_one] at hquot
    exact ⟨hquot, rfl⟩
  · rw [if_pos hs, if_neg hs'] at hfrac
    cases hfrac
  · rw [if_neg hs, if_pos hs'] at hfrac
    cases hfrac
  · rw [if_neg hs, if_neg hs', cons.injEq] at hfrac
    have hlength := congrArg length hfrac.2
    rw [length_fixedDigits, length_fixedDigits] at hlength
    subst hlength
    have hrem := congrArg ofDigits hfrac.2
    rw [ofDigits_fixedDigits, ofDigits_fixedDigits] at hrem
    refine ⟨?_, rfl⟩
    rw [← Nat.div_add_mod m (10 ^ s), ← Nat.div_add_mod m' (10 ^ s), hquot, hrem]

variable {neg neg' : Bool}

theorem plainText_injective {m s : Nat}
    (h : plainText neg m s = plainText neg' m' s') : neg = neg' ∧ m = m' ∧ s = s' := by
  have hsign : ∀ {m m' s s' : Nat}, 45 :: plainBody m s ≠ plainBody m' s' :=
    fun heq => head_plainBody_ne (by decide) (congrArg head? heq).symm
  cases neg <;> cases neg'
  · exact ⟨rfl, plainBody_injective h⟩
  · exact absurd h.symm hsign
  · exact absurd h hsign
  · exact ⟨rfl, plainBody_injective (cons.inj h).2⟩

theorem digitByte_eq_zero_iff (n : Nat) : (digitByte n == 48) ↔ n % 10 = 0 := by
  rw [beq_iff_eq, ← UInt8.toNat_inj, digitByte_toNat]
  change 48 + n % 10 = 48 ↔ _
  omega

theorem rdropWhile_digit (l : List UInt8) (n : Nat) :
    (l ++ [digitByte n]).rdropWhile (· == 48) =
      if n % 10 = 0 then l.rdropWhile (· == 48) else l ++ [digitByte n] := by
  simp only [rdropWhile_concat, digitByte_eq_zero_iff]

section Point

variable {a b : List UInt8}

theorem bne_point (ha : 46 ∉ a) : ∀ x ∈ a, (x != 46) := by
  intro x hx
  rw [bne_iff_ne]
  rintro rfl
  exact ha hx

theorem beforePoint_append (ha : 46 ∉ a) : beforePoint (a ++ 46 :: b) = a := by
  rw [beforePoint, takeWhile_append_of_pos (bne_point ha), takeWhile_cons_of_neg (by decide),
    append_nil]

theorem afterPoint_append (ha : 46 ∉ a) : afterPoint (a ++ 46 :: b) = b := by
  rw [afterPoint, dropWhile_append_of_pos (bne_point ha), dropWhile_cons_of_neg (by decide),
    drop_one, tail_cons]

theorem pointless (ha : 46 ∉ a) : beforePoint a = a ∧ afterPoint a = [] := by
  rw [beforePoint, afterPoint, takeWhile_eq_self_iff.mpr (bne_point ha), dropWhile_eq_nil_iff.mpr (bne_point ha)]
  exact ⟨rfl, rfl⟩

end Point

theorem all_isDigit_fixedDigits (s m : Nat) : (fixedDigits s m).all isDigit :=
  all_eq_true.mpr fun _ hb => by simpa [isDigit] using isDigit_fixedDigits s m hb

variable {d d' : Int128}

def stripAll (m : Nat) : Nat × Nat :=
  if 0 < m ∧ m % 10 = 0 then ((stripAll (m / 10)).1, (stripAll (m / 10)).2 + 1) else (m, 0)
termination_by m
decreasing_by all_goals omega

theorem stripAll_spec {m : Nat} (hm : 0 < m) :
    (stripAll m).1 * 10 ^ (stripAll m).2 = m ∧ (stripAll m).1 % 10 ≠ 0 := by
  fun_induction stripAll m with
  | case1 m hzero ih =>
    obtain ⟨hvalue, hlast⟩ := ih (by omega)
    rw [Nat.pow_succ, ← Nat.mul_assoc, hvalue]
    omega
  | case2 m hlast => exact ⟨by rw [Nat.pow_zero, Nat.mul_one], fun hzero => hlast ⟨hm, hzero⟩⟩

theorem rdropWhile_decimalDigits {m : Nat} (hm : 0 < m) :
    (decimalDigits m).rdropWhile (· == 48) = decimalDigits (stripAll m).1 ∧
      (decimalDigits m).length = (decimalDigits (stripAll m).1).length + (stripAll m).2 := by
  fun_induction stripAll m with
  | case1 m hzero ih =>
    obtain ⟨hdrop, hlength⟩ := ih (by omega)
    rw [decimalDigits_of_ge (by omega), rdropWhile_digit, if_pos hzero.2, hdrop, length_append,
      hlength]
    exact ⟨rfl, rfl⟩
  | case2 m hlast =>
    have hne : m % 10 ≠ 0 := fun hzero => hlast ⟨hm, hzero⟩
    refine ⟨?_, rfl⟩
    rw [decimalDigits]
    split_ifs
    · exact (rdropWhile_digit [] m).trans (if_neg hne)
    · rw [rdropWhile_digit, if_neg hne]

theorem decimalDigits_head {m : Nat} (hm : 0 < m) :
    ∃ b rest, decimalDigits m = b :: rest ∧ ¬ (b == 48) := by
  fun_induction decimalDigits m with
  | case1 m hlt =>
    refine ⟨digitByte m, [], rfl, ?_⟩
    rw [digitByte_eq_zero_iff]
    omega
  | case2 m hge ih =>
    obtain ⟨b, rest, hdigits, hb⟩ := ih (by omega)
    exact ⟨b, rest ++ [digitByte m], by rw [hdigits]; rfl, hb⟩

theorem beq_zeros (k : Nat) : ∀ b ∈ replicate k (48 : UInt8), (b == 48) :=
  fun _ hb => beq_iff_eq.mpr (eq_of_mem_replicate hb)

theorem dropWhile_zeros {m : Nat} (hm : 0 < m) (k : Nat) :
    (replicate k 48 ++ decimalDigits m).dropWhile (· == 48) = decimalDigits m := by
  obtain ⟨b, rest, hdigits, hb⟩ := decimalDigits_head hm
  have hkeep := @dropWhile_cons_of_neg _ (· == 48) b rest hb
  rw [dropWhile_append_of_pos (beq_zeros k), hdigits, hkeep]

theorem joined_digits (s m : Nat) :
    ∃ k, decimalDigits (m / 10 ^ s) ++ fixedDigits s m = replicate k 48 ++ decimalDigits m := by
  obtain hge | hlt := le_or_gt (10 ^ s) m
  · exact ⟨0, (decimalDigits_split hge).symm⟩
  cases s with
  | zero =>
    rw [Nat.pow_zero, Nat.div_one]
    exact ⟨0, append_nil _⟩
  | succ s =>
    refine ⟨s + 1 - (decimalDigits m).length + 1, ?_⟩
    rw [Nat.div_eq_of_lt hlt, ← fixedDigits_pad (Nat.succ_pos s) hlt,
      decimalDigits_of_lt (by decide : 0 < 10)]
    rfl

theorem all_isDigit_decimalDigits (m : Nat) : (decimalDigits m).all isDigit :=
  all_eq_true.mpr fun _ hb => by simpa [isDigit] using isDigit_decimalDigits m hb

theorem plainBody_parts (m s : Nat) :
    beforePoint (plainBody m s) = decimalDigits (m / 10 ^ s) ∧
      afterPoint (plainBody m s) = fixedDigits s m := by
  have hdigits : 46 ∉ decimalDigits (m / 10 ^ s) := not_mem_decimalDigits (.inl (by decide)) _
  rw [plainBody]
  by_cases hs : s = 0
  · subst hs
    rw [if_pos rfl, append_nil]
    exact pointless hdigits
  · rw [if_neg hs]
    exact ⟨beforePoint_append hdigits, afterPoint_append hdigits⟩

theorem mem_plainText {m s : Nat} {b : UInt8} (hb : b ∈ plainText neg m s) :
    b = 45 ∨ b = 46 ∨ 48 ≤ b.toNat ∧ b.toNat ≤ 57 := by
  rw [plainText, plainBody, mem_append, mem_append] at hb
  rcases hb with hb | hb | hb
  · cases neg with
    | true => exact .inl (mem_singleton.mp hb)
    | false => cases hb
  · exact .inr (.inr (isDigit_decimalDigits _ hb))
  · split_ifs at hb
    · cases hb
    · obtain rfl | hb := mem_cons.mp hb
      · exact .inr (.inl rfl)
      · exact .inr (.inr (isDigit_fixedDigits _ _ hb))

theorem not_space_plainText {m s : Nat} {b : UInt8} (hb : b ∈ plainText neg m s) :
    ¬ isDecimalSpace b ∧ (!isExponentMark b) := by
  rcases mem_plainText hb with rfl | rfl | ⟨hlow, hhigh⟩
  · decide
  · decide
  · have hbytes : ∀ c ∈ ([32, 9, 10, 11, 12, 13, 101, 69] : List UInt8),
        ¬ (48 ≤ c.toNat ∧ c.toNat ≤ 57) := by simp
    have hb := mt (hbytes b) (not_not.mpr ⟨hlow, hhigh⟩)
    simp_all [isDecimalSpace, isExponentMark]

theorem unsigned_plainText (neg : Bool) (m s : Nat) : unsigned (plainText neg m s) = plainBody m s := by
  unfold unsigned
  cases neg with
  | true => rfl
  | false => exact if_neg (not_or.mpr ⟨head_plainBody_ne (by decide), head_plainBody_ne (by decide)⟩)

theorem dropWhile_plainText (neg : Bool) (m s : Nat) :
    (plainText neg m s).dropWhile isDecimalSpace = plainText neg m s := by
  rw [dropWhile_eq_self_iff]
  intro hlt
  exact (not_space_plainText (getElem_mem hlt)).1

theorem trim_plainText (neg : Bool) (m s : Nat) :
    ((plainText neg m s).dropWhile isDecimalSpace).rdropWhile isDecimalSpace = plainText neg m s := by
  rw [dropWhile_plainText, rdropWhile_eq_self_iff]
  intro hne
  exact (not_space_plainText (getLast_mem hne)).1

theorem decimalTextSplit_plain (neg : Bool) (m s : Nat) :
    decimalTextSplit (plainText neg m s) =
      some (neg, decimalDigits (m / 10 ^ s), fixedDigits s m, -(s : Int)) := by
  have hmarks : ∀ b ∈ plainBody m s, (!isExponentMark b) := fun b hb =>
    (@not_space_plainText neg m s b (mem_append_right _ hb)).2
  have hneg : ((plainText neg m s).head? == some 45) = neg := by
    cases neg with
    | true => rfl
    | false => exact beq_eq_false_iff_ne.mpr (head_plainBody_ne (by decide))
  obtain ⟨hbefore, hafter⟩ := plainBody_parts m s
  have hsome : ¬ ((decimalDigits (m / 10 ^ s)).all isDigit = false ∨
      (fixedDigits s m).all isDigit = false ∨
      (decimalDigits (m / 10 ^ s)).length + (fixedDigits s m).length = 0) := by
    have hlength := length_pos_iff.mpr (decimalDigits_ne_nil (m / 10 ^ s))
    rw [all_isDigit_decimalDigits, all_isDigit_fixedDigits]
    rintro (h | h | h)
    · cases h
    · cases h
    · omega
  have hexp : exponentOf (plainBody m s) = some 0 := by
    unfold exponentOf
    rw [dropWhile_eq_nil_iff.mpr hmarks]
  unfold decimalTextSplit
  dsimp only
  rw [trim_plainText, unsigned_plainText, hexp, Option.bind_some, takeWhile_eq_self_iff.mpr hmarks, hbefore,
    hafter, if_neg hsome, hneg, length_fixedDigits, Int.zero_sub]

theorem decimalTextParts_plain (neg : Bool) (m s : Nat) :
    decimalTextParts (plainText neg m s) =
      some (neg, decimalDigits (m / 10 ^ s) ++ fixedDigits s m, -(s : Int)) := by
  rw [decimalTextParts, decimalTextSplit_plain, Option.map_some]

-- The canonical text of a number: its digits without zeros at either end and the exponent.
def canonicalText (neg : Bool) (m s : Nat) : List UInt8 :=
  if m = 0 then [48]
  else (if neg then [45] else []) ++ decimalDigits (stripAll m).1 ++
    101 :: intText (-(s : Int) + (stripAll m).2)

theorem canonicalDecimalText_plain (neg : Bool) (m s : Nat) :
    canonicalDecimalText (plainText neg m s) = some (canonicalText neg m s) := by
  obtain ⟨k, hjoined⟩ := joined_digits s m
  rw [canonicalDecimalText, decimalTextParts_plain, Option.map_some, canonicalText]
  dsimp only
  rw [hjoined]
  by_cases hm : m = 0
  · subst hm
    have hzeros : (replicate k (48 : UInt8) ++ decimalDigits 0).dropWhile (· == 48) = [] := by
      rw [dropWhile_append_of_pos (beq_zeros k), decimalDigits_of_lt (by decide : 0 < 10)]
      rfl
    rw [hzeros, rdropWhile_nil, if_pos rfl, if_pos rfl]
  · have hpos := Nat.pos_of_ne_zero hm
    obtain ⟨hkept, hlength⟩ := rdropWhile_decimalDigits hpos
    rw [dropWhile_zeros hpos, hkept, hlength, if_neg (decimalDigits_ne_nil _), if_neg hm,
      Nat.add_sub_cancel_left]

theorem plainText_whole (neg : Bool) (m : Nat) :
    plainText neg m 0 = (if neg then [45] else []) ++ decimalDigits m := by
  rw [plainText, plainBody, if_pos rfl, Nat.pow_zero, Nat.div_one, append_nil]

theorem canonicalText_eq_iff {m s : Nat} (hm : 0 < m) (hm' : 0 < m') :
    canonicalText neg m s = canonicalText neg' m' s' ↔
      neg = neg' ∧ m * 10 ^ s' = m' * 10 ^ s := by
  obtain ⟨hvalue, hlast⟩ := stripAll_spec hm
  obtain ⟨hvalue', hlast'⟩ := stripAll_spec hm'
  have hexponent : ∀ neg m, (101 : UInt8) ∉ plainText neg m 0 := fun neg m hmem =>
    absurd (mem_plainText hmem) (by decide)
  rw [canonicalText, canonicalText, if_neg hm.ne', if_neg hm'.ne',
    ← plainText_whole, ← plainText_whole]
  generalize stripAll m = r at hvalue hlast ⊢
  generalize stripAll m' = r' at hvalue' hlast' ⊢
  have hscaled : m * 10 ^ s' = m' * 10 ^ s ↔ r.1 = r'.1 ∧ r'.2 + s = r.2 + s' := by
    rw [← hvalue, ← hvalue', Nat.mul_assoc, Nat.mul_assoc, ← Nat.pow_add, ← Nat.pow_add]
    refine ⟨stripped_unique (.inr hlast) (.inr hlast'), ?_⟩
    rintro ⟨hdigits, hpow⟩
    rw [hdigits, hpow]
  rw [hscaled]
  constructor
  · intro h
    obtain ⟨hwhole, hrest⟩ := text_split (hexponent _ _) (hexponent _ _) (.inr ⟨_, rfl⟩)
      (.inr ⟨_, rfl⟩) h
    obtain ⟨hneg, hdigits, -⟩ := plainText_injective hwhole
    have hpow := intText_injective (cons.inj hrest).2
    exact ⟨hneg, hdigits, by omega⟩
  · rintro ⟨hneg, hdigits, hpow⟩
    have hexp : -(s : Int) + r.2 = -(s' : Int) + r'.2 := by omega
    rw [hneg, hdigits, hexp]

theorem canonicalText_ne_zero {m s : Nat} (hm : 0 < m) : canonicalText neg m s ≠ [48] := by
  intro h
  have hmem : (101 : UInt8) ∈ canonicalText neg m s := by
    rw [canonicalText, if_neg hm.ne']
    exact mem_append_right _ mem_cons_self
  rw [h] at hmem
  exact absurd hmem (by decide)

theorem canonicalDecimalText_eq_iff {s : Nat} :
    canonicalDecimalText (formatDecimal d s) = canonicalDecimalText (formatDecimal d' s') ↔
      d.signed * 10 ^ s' = d'.signed * 10 ^ s := by
  have hpow : ∀ n : Nat, (10 : Int) ^ n ≠ 0 := fun n => pow_ne_zero n (by decide)
  have hzero : ∀ neg s, canonicalText neg 0 s = [48] := fun _ _ => if_pos rfl
  rw [formatDecimal_eq, formatDecimal_eq, canonicalDecimalText_plain, canonicalDecimalText_plain,
    Option.some.injEq]
  by_cases hd : d.signed = 0
  · rw [hd, Int.natAbs_zero, zero_mul, zero_eq_mul, or_iff_left (hpow s)]
    by_cases hd' : d'.signed = 0
    · rw [hd', Int.natAbs_zero]
      exact iff_of_true rfl rfl
    · exact iff_of_false (fun h => canonicalText_ne_zero (Int.natAbs_pos.mpr hd') h.symm) hd'
  · by_cases hd' : d'.signed = 0
    · rw [hd', Int.natAbs_zero, zero_mul, mul_eq_zero, or_iff_left (hpow s')]
      exact iff_of_false (canonicalText_ne_zero (Int.natAbs_pos.mpr hd)) hd
    · have hscaled := scaled_eq_iff (Nat.pow_pos (by decide) : 0 < 10 ^ s')
        (Nat.pow_pos (by decide) : 0 < 10 ^ s) hd hd'
      push_cast at hscaled
      rw [canonicalText_eq_iff (Int.natAbs_pos.mpr hd) (Int.natAbs_pos.mpr hd'), Bool.eq_iff_iff,
        d.isNegative_iff_signed, d'.isNegative_iff_signed, hscaled]

-- The binary key and the text key tell the same decimals apart, and binary keys can be
-- read off a concatenation.
theorem decimalKeys_agree (d d' : Int128) (s s' : Nat) (hs : s ≤ 38) (hs' : s' ≤ 38) :
    (appendDecimalKey d s = appendDecimalKey d' s' ↔ d.signed * 10 ^ s' = d'.signed * 10 ^ s) ∧
    (∀ rest rest', appendDecimalKey d s ++ rest = appendDecimalKey d' s' ++ rest' →
      appendDecimalKey d s = appendDecimalKey d' s' ∧ rest = rest') ∧
    (canonicalDecimalText (formatDecimal d s) = canonicalDecimalText (formatDecimal d' s') ↔
      d.signed * 10 ^ s' = d'.signed * 10 ^ s) := by
  have hread : ∀ rest rest', appendDecimalKey d s ++ rest = appendDecimalKey d' s' ++ rest' →
      compareDecimalValues d s d' s' = 0 ∧ rest = rest' := fun rest rest' =>
    tells_decimalKey.tells false (d, s) (d', s') ⟨by dsimp only; omega, by dsimp only; omega⟩ rest rest' nofun
  have hcongr : compareDecimalValues d s d' s' = 0 → appendDecimalKey d s = appendDecimalKey d' s' :=
    tells_decimalKey.congr (d, s) (d', s')
  refine ⟨?_, fun rest rest' heq => ?_, canonicalDecimalText_eq_iff⟩
  · rw [← compareDecimalValues_eq_zero_iff]
    exact ⟨fun heq => (hread [] [] (congrArg (· ++ []) heq)).1, hcongr⟩
  · obtain ⟨hzero, hrest⟩ := hread rest rest' heq
    exact ⟨hcongr hzero, hrest⟩

theorem decimalKeys_agree_cents :
    appendDecimalKey (int128From 1275) 2 = appendDecimalKey (int128From 127500) 4 :=
  (decimalKeys_agree (int128From 1275) (int128From 127500) 2 4 (by decide) (by decide)).1.mpr (by decide)

end Wadjet.Engine.Batch
