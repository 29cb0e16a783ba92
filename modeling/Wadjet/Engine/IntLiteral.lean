import Mathlib.Data.List.DropRight
import Wadjet.Data.Wide

namespace Wadjet.Engine.IntLiteral

open Wadjet.Data List

inductive NumConstStatus where
  | syntaxFault
  | range

def isIntSpace (c : UInt8) : Bool :=
  c == 32 || 9 ≤ c && c ≤ 13

def trimIntSpace (s : List UInt8) : List UInt8 :=
  (s.dropWhile isIntSpace).rdropWhile isIntSpace

-- Sixteen is above every base.
def digitValue (c : UInt8) : Int :=
  if 48 ≤ c ∧ c ≤ 57 then c.toNat - 48
  else if 97 ≤ c ∧ c ≤ 102 then c.toNat - 97 + 10
  else if 65 ≤ c ∧ c ≤ 70 then c.toNat - 65 + 10
  else 16

def readDigits (base : Int) (prefixed : Bool) :
    List UInt8 → Bool → Int → Nat → Except NumConstStatus (Int × Nat)
  | [], _, acc, digits => .ok (acc, digits)
  | c :: t, first, acc, digits =>
    if c = 95 then
      if !prefixed && first then .error .syntaxFault
      else if t.head?.all fun next => base ≤ digitValue next then .error .syntaxFault
      else readDigits base prefixed t false acc digits
    else
      let d := digitValue c
      if base ≤ d then .error .syntaxFault
      else if acc < (-2 ^ 63 : Int).tdiv base then .error .range
      else
        let acc := wrap64 (acc * base)
        if acc < wrap64 (-2 ^ 63 + d) then .error .range
        else readDigits base prefixed t false (wrap64 (acc - d)) (digits + 1)

def signOf : List UInt8 → Bool × List UInt8
  | [] => (false, [])
  | c :: t => if c = 43 then (false, t) else if c = 45 then (true, t) else (false, c :: t)

structure Radix where
  base : Nat
  prefixed : Bool
  body : List UInt8

def baseOf : List UInt8 → Radix
  | 48 :: c :: d :: t =>
    if c = 120 ∨ c = 88 then ⟨16, true, d :: t⟩
    else if c = 111 ∨ c = 79 then ⟨8, true, d :: t⟩
    else if c = 98 ∨ c = 66 then ⟨2, true, d :: t⟩
    else ⟨10, false, 48 :: c :: d :: t⟩
  | t => ⟨10, false, t⟩

def signed (neg : Bool) : Except NumConstStatus (Int × Nat) → Except NumConstStatus Int
  | .error e => .error e
  | .ok (acc, digits) =>
    if digits = 0 then .error .syntaxFault
    else if neg then .ok acc
    else if acc = -2 ^ 63 then .error .range
    else .ok (wrap64 (-acc))

def parseIntText (s : List UInt8) : Except NumConstStatus Int :=
  let t := trimIntSpace s
  if t = [] then .error .syntaxFault
  else
    let sign := signOf t
    let radix := baseOf sign.2
    signed sign.1 (readDigits radix.base radix.prefixed radix.body true 0 0)

def IsDigit (base : Nat) (c : UInt8) (d : Nat) : Prop :=
  d < base ∧ (d < 10 ∧ c.toNat = 48 + d ∨
    10 ≤ d ∧ d < 16 ∧ (c.toNat = 87 + d ∨ c.toNat = 55 + d))

-- Digits, each after at most one underscore.
inductive Numeral (base : Nat) : List UInt8 → List Nat → Prop
  | nil : Numeral base [] []
  | digit {c d t ds} : IsDigit base c d → Numeral base t ds → Numeral base (c :: t) (d :: ds)
  | underscore {c d t ds} : IsDigit base c d → Numeral base t ds →
      Numeral base (95 :: c :: t) (d :: ds)

def extend (base : Nat) (m : Nat) (ds : List Nat) : Nat :=
  ds.foldl (fun m d => m * base + d) m

def signs : List (List UInt8 × Bool) :=
  [([], false), ([43], false), ([45], true)]

def bases : List (List UInt8 × Nat) :=
  [([], 10), ([48, 120], 16), ([48, 88], 16), ([48, 111], 8), ([48, 79], 8), ([48, 98], 2),
    ([48, 66], 2)]

-- A sign, a base and digits of it; without a prefix no underscore leads.
def Literal (t : List UInt8) (neg : Bool) (base : Nat) (ds : List Nat) : Prop :=
  ∃ sign mark body, t = sign ++ (mark ++ body) ∧ (sign, neg) ∈ signs ∧ (mark, base) ∈ bases ∧
    Numeral base body ds ∧ (mark = [] → body.head? ≠ some 95)

def denoted (neg : Bool) (base : Nat) (ds : List Nat) : Int :=
  if neg then -extend base 0 ds else extend base 0 ds

section Digits

variable {base : Nat} (hlow : 2 ≤ base) (hhigh : base ≤ 16) {c : UInt8} {m k : Nat} {d : Nat}

include hhigh in
theorem isDigit_iff : IsDigit base c d ↔ digitValue c = d ∧ digitValue c < base := by
  unfold IsDigit digitValue
  simp only [UInt8.le_iff_toNat_le, UInt8.reduceToNat]
  split_ifs <;> omega

include hhigh in
theorem exists_isDigit (h : ¬ (base : Int) ≤ digitValue c) : ∃ d, IsDigit base c d := by
  have hnonneg : 0 ≤ digitValue c := by
    unfold digitValue
    simp only [UInt8.le_iff_toNat_le, UInt8.reduceToNat]
    split_ifs <;> omega
  exact ⟨(digitValue c).toNat, (isDigit_iff hhigh).mpr ⟨by omega, by omega⟩⟩

theorem IsDigit.ne_underscore (h : IsDigit base c d) : c ≠ 95 := by
  rintro rfl
  unfold IsDigit at h
  simp only [UInt8.reduceToNat] at h
  omega

include hlow in
theorem le_extend (ds : List Nat) : m ≤ extend base m ds := by
  induction ds generalizing m with
  | nil => exact le_rfl
  | cons d ds ih =>
    have hle := Nat.le_mul_of_pos_right m (show 0 < base by omega)
    rw [extend, foldl_cons]
    exact le_trans (by omega) ih

variable {prefixed first : Bool} {t : List UInt8}

include hlow hhigh in
theorem readDigits_digit (hd : IsDigit base c d) : readDigits base prefixed (c :: t) first (-m) k =
      if 2 ^ 63 < m * base + d then .error .range
      else readDigits base prefixed t false (-(m * base + d : Nat)) (k + 1) := by
  obtain ⟨hvalue, hlt⟩ := (isDigit_iff hhigh).mp hd
  have hdiv : (-2 ^ 63 : Int).tdiv base = -(2 ^ 63 / base : Nat) := by
    rfl
  have hsplit := Nat.div_add_mod (2 ^ 63) base
  have hmod := Nat.mod_lt (2 ^ 63) (show 0 < base by omega)
  rw [readDigits, if_neg hd.ne_underscore, if_neg (by omega)]
  by_cases hfirst : 2 ^ 63 / base < m
  · have hmul := Nat.mul_le_mul_left base (Nat.succ_le_of_lt hfirst)
    rw [Nat.mul_succ, Nat.mul_comm base m] at hmul
    rw [if_pos (by omega), if_pos (by omega)]
  have hmul := Nat.mul_le_mul_left base (Nat.le_of_not_lt hfirst)
  rw [Nat.mul_comm base m] at hmul
  have hacc : -(m : Int) * base = -(m * base : Nat) := by
    push_cast
    ring
  rw [if_neg (by omega), wrap64_eq (by omega) (by omega)]
  rw [wrap64_eq (by omega) (by omega)]
  by_cases hover : 2 ^ 63 < m * base + d
  · rw [if_pos (by omega), if_pos hover]
  · rw [if_neg (by omega), if_neg hover, wrap64_eq (by omega) (by omega)]
    congr 1
    omega

include hhigh in
theorem readDigits_underscore (hd : IsDigit base c d) (hfirst : prefixed = false → first = false) :
    readDigits base prefixed (95 :: c :: t) first (-m) k =
      readDigits base prefixed (c :: t) false (-m) k := by
  have hlt := ((isDigit_iff hhigh).mp hd).2
  rw [readDigits, if_pos rfl, if_neg (by cases prefixed <;> simp_all), if_neg (by simpa using hlt)]

variable {ds : List Nat}

include hlow hhigh in
theorem readDigits_of_numeral (h : Numeral base t ds)
    (hfirst : prefixed = false → first → t.head? ≠ some 95)
    (hfits : extend base m ds ≤ 2 ^ 63) : readDigits base prefixed t first (-m) k =
      .ok (-(extend base m ds : Nat), k + ds.length) := by
  induction h generalizing m k first with
  | nil => rfl
  | @digit c d t ds hd _ ih =>
    have hle : m * base + d ≤ extend base (m * base + d) ds := le_extend hlow ds
    have hrest := @ih (m * base + d) (k + 1) false (fun _ h => Bool.noConfusion h) hfits
    rw [readDigits_digit hlow hhigh hd, if_neg (not_lt.mpr (hle.trans hfits)), hrest,
      Nat.add_assoc, Nat.add_comm 1]
    rfl
  | @underscore c d t ds hd _ ih =>
    have hle : m * base + d ≤ extend base (m * base + d) ds := le_extend hlow ds
    have hrest := @ih (m * base + d) (k + 1) false (fun _ h => Bool.noConfusion h) hfits
    rw [readDigits_underscore hhigh hd (by simpa using hfirst), readDigits_digit hlow hhigh hd,
      if_neg (not_lt.mpr (hle.trans hfits)), hrest, Nat.add_assoc, Nat.add_comm 1]
    rfl

-- What the loop has read when it stops: all of the text, or digits that leave the range.
def Reads (base : Nat) (prefixed first : Bool) (m k : Nat) (t : List UInt8) :
    Except NumConstStatus (Int × Nat) → Prop
  | .ok (acc, digits) => ∃ ds, Numeral base t ds ∧
      (prefixed = false → first → t.head? ≠ some 95) ∧ extend base m ds ≤ 2 ^ 63 ∧
      acc = -(extend base m ds : Nat) ∧ digits = k + ds.length
  | .error .range => ∃ body rest ds, t = body ++ rest ∧ Numeral base body ds ∧
      (prefixed = false → first → body.head? ≠ some 95) ∧ 2 ^ 63 < extend base m ds
  | .error .syntaxFault => True

theorem Numeral.after_underscore
    (h : Numeral base (c :: t) ds) (hd : IsDigit base c d) : Numeral base (95 :: c :: t) ds := by
  cases h with
  | digit hc ht => exact .underscore hc ht
  | underscore => exact absurd rfl hd.ne_underscore

include hlow hhigh in
theorem reads_readDigits (t : List UInt8) (first : Bool) (hm : m ≤ 2 ^ 63) :
    Reads base prefixed first m k t (readDigits base prefixed t first (-m) k) := by
  induction t generalizing m k first with
  | nil => exact ⟨[], .nil, fun _ _ => nofun, hm, rfl, rfl⟩
  | cons c t ih =>
    by_cases hc : c = 95
    · subst hc
      rw [readDigits, if_pos rfl]
      split_ifs with hguard hnext
      · trivial
      · trivial
      · have hfirst : prefixed = false → first → False := by
          rintro rfl rfl
          exact hguard rfl
        have hrest := @ih m k false hm
        cases t with
        | nil => exact absurd rfl hnext
        | cons c t =>
          obtain ⟨d, hd⟩ : ∃ d, IsDigit base c d := exists_isDigit hhigh (by simpa using hnext)
          cases hread : readDigits base prefixed (c :: t) false (-m) k with
          | ok out =>
            rw [hread] at hrest
            obtain ⟨ds, hds, -, hout⟩ := hrest
            exact ⟨ds, hds.after_underscore hd, fun h h' => (hfirst h h').elim, hout⟩
          | error e =>
            rw [hread] at hrest
            cases e with
            | syntaxFault => trivial
            | range =>
              obtain ⟨body, rest, ds, heq, hbody, -, hover⟩ := hrest
              cases body with
              | nil =>
                cases hbody
                exact absurd hm (not_le.mpr hover)
              | cons c' body =>
                obtain ⟨rfl, rfl⟩ := cons.inj heq
                exact ⟨95 :: c :: body, rest, ds, rfl, hbody.after_underscore hd,
                  fun h h' => (hfirst h h').elim, hover⟩
    · by_cases hdigit : (base : Int) ≤ digitValue c
      · rw [readDigits, if_neg hc, if_pos hdigit]
        trivial
      obtain ⟨d, hd⟩ := exists_isDigit hhigh hdigit
      have hne : (c :: t).head? ≠ some 95 := by simpa using hc
      rw [readDigits_digit hlow hhigh hd]
      split_ifs with hover
      · exact ⟨[c], t, [d], rfl, .digit hd .nil, fun _ _ => by simpa using hc, hover⟩
      · have hrest := @ih (m * base + d) (k + 1) false (not_lt.mp hover)
        cases hread : readDigits base prefixed t false (-(m * base + d : Nat)) (k + 1) with
        | ok out =>
          rw [hread] at hrest
          obtain ⟨ds, hds, -, hfits, hacc, hcount⟩ := hrest
          exact ⟨d :: ds, .digit hd hds, fun _ _ => hne, hfits, hacc,
            by rw [hcount, length_cons]; omega⟩
        | error e =>
          rw [hread] at hrest
          cases e with
          | syntaxFault => trivial
          | range =>
            obtain ⟨body, rest, ds, rfl, hbody, -, hover⟩ := hrest
            exact ⟨c :: body, rest, d :: ds, rfl, .digit hd hbody, fun _ _ => by simpa using hc,
              hover⟩

end Digits

theorem signOf_cases (t : List UInt8) :
    ∃ sign, (sign, (signOf t).1) ∈ signs ∧ t = sign ++ (signOf t).2 := by
  unfold signOf
  split
  · exact ⟨[], by decide, rfl⟩
  · split_ifs with hplus hminus
    · exact ⟨[43], by simp [signs], by rw [hplus]; rfl⟩
    · exact ⟨[45], by simp [signs], by rw [hminus]; rfl⟩
    · exact ⟨[], by simp [signs], rfl⟩

theorem baseOf_cases (t : List UInt8) : ∃ mark, (mark, (baseOf t).base) ∈ bases ∧
    t = mark ++ (baseOf t).body ∧ ((baseOf t).prefixed = false ↔ mark = []) := by
  unfold baseOf
  split
  next c d t =>
    split_ifs with hx ho hb
    · exact ⟨[48, c], by rcases hx with rfl | rfl <;> simp [bases], rfl, by simp⟩
    · exact ⟨[48, c], by rcases ho with rfl | rfl <;> simp [bases], rfl, by simp⟩
    · exact ⟨[48, c], by rcases hb with rfl | rfl <;> simp [bases], rfl, by simp⟩
    · exact ⟨[], by simp [bases], rfl, by simp⟩
  · exact ⟨[], by simp [bases], rfl, by simp⟩

variable {mark : List UInt8} {base : Nat}

theorem base_bounds (h : (mark, base) ∈ bases) : 2 ≤ base ∧ base ≤ 16 := by
  simp only [bases, mem_cons, Prod.mk.injEq, not_mem_nil, or_false] at h
  omega

variable {c : UInt8} {t : List UInt8} {ds : List Nat}

theorem decimal_head (h : Numeral 10 (c :: t) ds) : c = 95 ∨ 48 ≤ c.toNat ∧ c.toNat ≤ 57 := by
  cases h with
  | digit hd _ =>
    unfold IsDigit at hd
    omega
  | underscore => exact .inl rfl

variable {sign : List UInt8} {neg : Bool}

theorem signOf_append (t : List UInt8)
    (hsign : (sign, neg) ∈ signs) (hc : 48 ≤ c.toNat) : signOf (sign ++ c :: t) = (neg, c :: t) := by
  simp only [signs, mem_cons, not_mem_nil, or_false] at hsign
  obtain ⟨rfl, rfl⟩ | ⟨rfl, rfl⟩ | ⟨rfl, rfl⟩ := hsign
  · rw [nil_append, signOf, if_neg (by rintro rfl; simp at hc), if_neg (by rintro rfl; simp at hc)]
  · rfl
  · rfl

theorem baseOf_decimal (h : Numeral 10 t ds) : baseOf t = ⟨10, false, t⟩ := by
  unfold baseOf
  split
  next c d t =>
    cases h with
    | digit _ h =>
      have hc := decimal_head h
      rw [if_neg (by rintro (rfl | rfl) <;> simp at hc), if_neg (by rintro (rfl | rfl) <;> simp at hc),
        if_neg (by rintro (rfl | rfl) <;> simp at hc)]
  · rfl

theorem split_of_literal
    (h : Literal t neg base ds) (hne : ds ≠ []) : ∃ radix, signOf t = (neg, (signOf t).2) ∧
      baseOf (signOf t).2 = radix ∧ radix.base = base ∧ Numeral base radix.body ds ∧
      (radix.prefixed = false → radix.body.head? ≠ some 95) := by
  obtain ⟨sign, mark, body, rfl, hsign, hmark, hbody, hhead⟩ := h
  cases body with
  | nil =>
    cases hbody
    exact absurd rfl hne
  | cons c t =>
    simp only [bases, mem_cons, not_mem_nil, or_false] at hmark
    obtain ⟨rfl, rfl⟩ | ⟨rfl, rfl⟩ | ⟨rfl, rfl⟩ | ⟨rfl, rfl⟩ | ⟨rfl, rfl⟩ | ⟨rfl, rfl⟩ | ⟨rfl, rfl⟩ :=
      hmark
    · have hc := (decimal_head hbody).resolve_left (by simpa using hhead rfl)
      rw [nil_append, signOf_append t hsign hc.1, baseOf_decimal hbody]
      exact ⟨_, rfl, rfl, rfl, hbody, fun _ => hhead rfl⟩
    all_goals
      rw [cons_append, signOf_append _ hsign (by decide)]
      exact ⟨_, rfl, rfl, rfl, hbody, nofun⟩

def InRange (n : Int) : Prop :=
  -2 ^ 63 ≤ n ∧ n ≤ 2 ^ 63 - 1

instance (n : Int) : Decidable (InRange n) :=
  inferInstanceAs (Decidable (_ ∧ _))

theorem signed_eq {k : Nat} (hfits : extend base 0 ds ≤ 2 ^ 63) :
    signed neg (.ok (-(extend base 0 ds : Nat), k)) =
      if k = 0 then .error .syntaxFault
      else if InRange (denoted neg base ds) then .ok (denoted neg base ds) else .error .range := by
  have hword : wrap64 (- -(extend base 0 ds : Int)) = wrap64 (extend base 0 ds) := by rw [neg_neg]
  cases neg with
  | true =>
    have hin : InRange (denoted true base ds) := ⟨by simpa [denoted] using hfits, by simp [denoted]⟩
    rw [if_pos hin]
    rfl
  | false =>
    by_cases hleast : -(extend base 0 ds : Int) = -2 ^ 63
    · have hout : ¬ InRange (denoted false base ds) := fun h => absurd h.2 (by simp [denoted]; omega)
      rw [if_neg hout, signed, if_pos hleast]
      rfl
    · have hin : InRange (denoted false base ds) := ⟨by simp [denoted], by simp [denoted]; omega⟩
      rw [if_pos hin, signed, if_neg hleast, hword, wrap64_eq (by omega) (by omega)]
      rfl

def Answers (t : List UInt8) : Except NumConstStatus Int → Prop
  | .ok n => (∃ neg base ds, Literal t neg base ds ∧ ds ≠ [] ∧ n = denoted neg base ds) ∧ InRange n
  | .error .range => ∃ text rest neg base ds, t = text ++ rest ∧ Literal text neg base ds ∧
      ¬ InRange (denoted neg base ds)
  | .error .syntaxFault => True

theorem answers_signed {body : List UInt8} {prefixed : Bool}
    (hsign : (sign, neg) ∈ signs) (hmark : (mark, base) ∈ bases) (ht : t = sign ++ (mark ++ body))
    (hnil : prefixed = false ↔ mark = []) {r : Except NumConstStatus (Int × Nat)}
    (h : Reads base prefixed true 0 0 body r) : Answers t (signed neg r) := by
  match r with
  | .error .syntaxFault => trivial
  | .error .range =>
    obtain ⟨read, rest, ds, rfl, hread, hhead, hover⟩ := h
    refine ⟨sign ++ (mark ++ read), rest, neg, base, ds, by simp [ht],
      ⟨sign, mark, read, rfl, hsign, hmark, hread, fun h => hhead (hnil.mpr h) rfl⟩, ?_⟩
    unfold InRange denoted
    split_ifs <;> omega
  | .ok (acc, digits) =>
    obtain ⟨ds, hread, hhead, hfits, rfl, rfl⟩ := h
    have hliteral : Literal t neg base ds :=
      ⟨sign, mark, body, ht, hsign, hmark, hread, fun h => hhead (hnil.mpr h) rfl⟩
    rw [signed_eq hfits]
    split_ifs with hnone hrange
    · trivial
    · exact ⟨⟨neg, base, ds, hliteral, by rintro rfl; exact hnone rfl, rfl⟩, hrange⟩
    · exact ⟨t, [], neg, base, ds, (append_nil t).symm, hliteral, hrange⟩

theorem parseIntText_eq (s : List UInt8) : parseIntText s =
    let sign := signOf (trimIntSpace s)
    let radix := baseOf sign.2
    signed sign.1 (readDigits radix.base radix.prefixed radix.body true 0 0) := by
  unfold parseIntText
  cases trimIntSpace s <;> rfl

theorem answers_parseIntText (s : List UInt8) : Answers (trimIntSpace s) (parseIntText s) := by
  obtain ⟨sign, hsign, ht⟩ := signOf_cases (trimIntSpace s)
  obtain ⟨mark, hmark, hu, hnil⟩ := baseOf_cases (signOf (trimIntSpace s)).2
  obtain ⟨hlow, hhigh⟩ := base_bounds hmark
  rw [parseIntText_eq]
  refine answers_signed hsign hmark (hu ▸ ht) hnil ?_
  exact reads_readDigits hlow hhigh _ true (Nat.zero_le _)

theorem parseIntText_of_literal {s : List UInt8}
    (h : Literal (trimIntSpace s) neg base ds) (hne : ds ≠ []) (hrange : InRange (denoted neg base ds)) :
    parseIntText s = .ok (denoted neg base ds) := by
  obtain ⟨radix, hsign, hradix, rfl, hbody, hhead⟩ := split_of_literal h hne
  obtain ⟨-, mark, -, -, -, hmark, -⟩ := h
  obtain ⟨hlow, hhigh⟩ := base_bounds hmark
  have hfits : extend radix.base 0 ds ≤ 2 ^ 63 := by
    unfold InRange denoted at hrange
    split_ifs at hrange <;> omega
  have hread : readDigits radix.base radix.prefixed radix.body true 0 0 =
      .ok (-(extend radix.base 0 ds : Nat), 0 + ds.length) :=
    readDigits_of_numeral hlow hhigh hbody (fun h _ => hhead h) hfits
  rw [parseIntText_eq, hsign]
  simp only [hradix, hread]
  rw [signed_eq hfits, if_neg (by simpa using hne), if_pos hrange]

-- The integers that are read, and what has been read when a text is out of range.
theorem parseIntText_spec (s : List UInt8) :
    (∀ n, parseIntText s = .ok n ↔
      (∃ neg base ds, Literal (trimIntSpace s) neg base ds ∧ ds ≠ [] ∧ n = denoted neg base ds) ∧
        -2 ^ 63 ≤ n ∧ n ≤ 2 ^ 63 - 1) ∧
    (parseIntText s = .error .range → ∃ text rest neg base ds, trimIntSpace s = text ++ rest ∧
      Literal text neg base ds ∧
        ¬ (-2 ^ 63 ≤ denoted neg base ds ∧ denoted neg base ds ≤ 2 ^ 63 - 1)) := by
  have hanswers := answers_parseIntText s
  refine ⟨fun n => ⟨fun h => ?_, ?_⟩, fun h => ?_⟩
  · rw [h] at hanswers
    exact hanswers
  · rintro ⟨⟨neg, base, ds, hliteral, hne, rfl⟩, hrange⟩
    exact parseIntText_of_literal hliteral hne hrange
  · rw [h] at hanswers
    exact hanswers

end Wadjet.Engine.IntLiteral
