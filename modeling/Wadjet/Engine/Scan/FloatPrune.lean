import Wadjet.Data.Double
import Wadjet.Engine.Scan.StatsPrune

namespace Wadjet.Engine.Scan

open Wadjet.Data Option

-- An unquoted numeric literal: an integer where it parses as one, else a double.
inductive NumericLiteral where
  | int (i : Int)
  | double (q : ℚ)

def NumericLiteral.Valid : NumericLiteral → Prop
  | .int i => -2 ^ 63 ≤ i ∧ i < 2 ^ 63
  | .double q => IsDouble q

def NumericLiteral.box : NumericLiteral → Box
  | .int i => .int i
  | .double q => .float (.finite q)

-- The machine's conversion to an integer; past the range it answers the least one.
def int64OfFloat (q : ℚ) : Int :=
  if -2 ^ 63 ≤ truncated q ∧ truncated q < 2 ^ 63 then truncated q else -2 ^ 63

def float64FilterConst : NumericLiteral → ℚ
  | .int i => roundInt i
  | .double q => q

def timestampFilterConst : NumericLiteral → Int
  | .int i => i
  | .double q => int64OfFloat q

def keepsFloat (op : CompareOp) (c : ℚ) (a : FloatValue) : Prop :=
  match op with
  | .eq => a = .finite c
  | .ne => a ≠ .finite c
  | .lt => a.less (.finite c)
  | .le => a.less (.finite c) ∨ a = .finite c
  | .gt => ¬ (a.less (.finite c) ∨ a = .finite c)
  | .ge => ¬ a.less (.finite c)
  | .isNull => False
  | .isNotNull => False

def FloatValue.IsMachine : FloatValue → Prop
  | .finite q => IsDouble q
  | _ => True

structure FloatBounds (stats : ColumnBounds) (rows : List (Option FloatValue)) : Prop where
  machine : ∀ v, some v ∈ rows → v.IsMachine
  nulls : stats.nullCount = rows.countP isNone
  min : ∀ box, stats.min = some box → ∃ f : FloatValue, box = .float f ∧ f.IsMachine ∧
    ∀ v, some v ∈ rows → v.less f = false
  max : ∀ box, stats.max = some box → ∃ f : FloatValue, box = .float f ∧ f.IsMachine ∧
    ∀ v, some v ∈ rows → f.less v = false

structure TimestampBounds (stats : ColumnBounds) (rows : List (Option Int)) : Prop where
  machine : ∀ v, some v ∈ rows → -2 ^ 63 ≤ v ∧ v < 2 ^ 63
  nulls : stats.nullCount = rows.countP isNone
  min : ∀ box, stats.min = some box → ∃ i : Int, box = .int i ∧ (-2 ^ 63 ≤ i ∧ i < 2 ^ 63) ∧
    ∀ v, some v ∈ rows → i ≤ v
  max : ∀ box, stats.max = some box → ∃ i : Int, box = .int i ∧ (-2 ^ 63 ≤ i ∧ i < 2 ^ 63) ∧
    ∀ v, some v ∈ rows → v ≤ i

def FloatPruneSafe (op : CompareOp) (lit : NumericLiteral) : Prop :=
  ∀ stats rows, FloatBounds stats rows →
    canPruneRowGroup op lit.box (some stats) rows.length →
    ∀ v, some v ∈ rows → ¬ keepsFloat op (float64FilterConst lit) v

def TimestampPruneSafe (op : CompareOp) (lit : NumericLiteral) : Prop :=
  ∀ stats rows, TimestampBounds stats rows →
    canPruneRowGroup op lit.box (some stats) rows.length →
    ∀ v, some v ∈ rows → ¬ holds op v (timestampFilterConst lit)

theorem not_mem_of_nulls {α : Type} {rows : List (Option α)} {n : Nat}
    (hnulls : n = rows.countP isNone) (hall : n = rows.length) {v : α} :
    some v ∉ rows := by
  intro hmem
  rw [hall, eq_comm, List.countP_eq_length] at hnulls
  cases hnulls (some v) hmem

def NumericLiteral.value : NumericLiteral → ℚ
  | .int i => i
  | .double q => q

theorem sign_neg_iff (x : ℚ) : (SignType.sign x : ℤ) < 0 ↔ x < 0 := by
  obtain hlt | rfl | hgt := lt_trichotomy x 0
  · simp [hlt]
  · simp
  · simp [sign_pos hgt, hgt.le]

theorem sign_pos_iff (x : ℚ) : 0 < (SignType.sign x : ℤ) ↔ 0 < x := by
  obtain hlt | rfl | hgt := lt_trichotomy x 0
  · simp [sign_neg hlt, hlt.le]
  · simp
  · simp [hgt]

theorem FloatValue.less_asymm {a b : FloatValue} (h : a.less b) : b.less a = false := by
  cases a <;> cases b <;> simp_all [FloatValue.less, le_of_lt]

theorem cmpFloat_flip (a b : FloatValue) : cmpFloat b a = -cmpFloat a b := by
  unfold cmpFloat
  split_ifs with hba hab hab
  · cases (FloatValue.less_asymm hba).symm.trans hab
  all_goals rfl

theorem cmpFloat_neg_iff (a b : FloatValue) : cmpFloat a b < 0 ↔ a.less b := by
  unfold cmpFloat
  split_ifs <;> simp_all

structure Compares (value bound : Box) (below above : Prop) (c : Option Int) : Prop where
  left : compareValuesOK value bound = c
  right : compareValuesOK bound value = c.map (- ·)
  neg : c.any (· < 0) ↔ below
  pos : c.any (0 < ·) ↔ above

theorem boundsExclude_iff {op : CompareOp} {value lo hi : Box} {below above below' above' : Prop}
    {c d : Option Int} (hlo : Compares value lo below above c)
    (hhi : Compares value hi below' above' d) : boundsExclude op value lo hi ↔
      match op with
      | .eq => below ∨ above'
      | .lt => c ≠ none ∧ ¬ above
      | .le => below
      | .gt => d ≠ none ∧ ¬ below'
      | .ge => above'
      | .ne => (compareValuesOK lo hi).any (· == 0) ∧ c = some 0
      | .isNull | .isNotNull => False := by
  simp only [← hlo.neg, ← hlo.pos, ← hhi.neg, ← hhi.pos]
  cases op <;> simp only [boundsExclude, hlo.left, hlo.right, hhi.left, hhi.right] <;>
    cases c <;> cases d <;> simp

section Compare

variable {lit : NumericLiteral}

theorem compares_float (hlit : lit.Valid) (f : FloatValue) :
    ∃ c, Compares lit.box (.float f) ((FloatValue.finite lit.value).less f)
      (f.less (.finite lit.value)) c ∧ (f ≠ .nan → c ≠ none) := by
  cases lit with
  | int i =>
    cases f with
    | nan => exact ⟨none, ⟨rfl, rfl, .rfl, .rfl⟩, absurd rfl⟩
    | negInf => exact ⟨some 1, ⟨rfl, rfl, .rfl, .rfl⟩, fun _ => nofun⟩
    | posInf => exact ⟨some (-1), ⟨rfl, rfl, .rfl, .rfl⟩, fun _ => nofun⟩
    | finite q =>
      have hcmp := cmpInt64Float64_finite hlit.1 hlit.2 q
      refine ⟨_, ⟨hcmp, congrArg (Option.map (- ·)) hcmp, ?_, ?_⟩, fun _ => nofun⟩
      · rw [any_some, decide_eq_true_eq, sign_neg_iff, sub_neg]
        exact decide_eq_true_iff.symm
      · rw [any_some, decide_eq_true_eq, sign_pos_iff, sub_pos]
        exact decide_eq_true_iff.symm
  | double q =>
    by_cases hf : f = .nan
    · subst hf
      exact ⟨none, ⟨rfl, rfl, .rfl, .rfl⟩, absurd rfl⟩
    refine ⟨some (cmpFloat (.finite q) f), ⟨if_neg (by simp [hf]), ?_, ?_, ?_⟩, fun _ => nofun⟩
    · rw [map_some, ← cmpFloat_flip]
      exact if_neg (by simp [hf])
    · simp [cmpFloat_neg_iff, NumericLiteral.value]
    · rw [any_some, decide_eq_true_eq, ← neg_lt_zero, ← cmpFloat_flip, cmpFloat_neg_iff]
      rfl

theorem compares_int (hlit : lit.Valid) {b : Int} (hb : -2 ^ 63 ≤ b ∧ b < 2 ^ 63) :
    ∃ c, Compares lit.box (.int b) (lit.value < b) (b < lit.value) (some c) := by
  cases lit with
  | int i =>
    have hflip : cmpOrdered b i = -cmpOrdered i b := by
      rw [cmpOrdered_intCast, cmpOrdered_intCast, ← neg_sub, Left.sign_neg, SignType.coe_neg]
    exact ⟨cmpOrdered i b, rfl, congrArg some hflip,
      by simp [cmpOrdered_neg_iff, NumericLiteral.value],
      by simp [cmpOrdered_pos_iff, NumericLiteral.value]⟩
  | double q =>
    have hcmp := cmpInt64Float64_finite hb.1 hb.2 q
    refine ⟨-(SignType.sign ((b : ℚ) - q) : ℤ), congrArg (Option.map (- ·)) hcmp, ?_, ?_, ?_⟩
    · rw [map_some, neg_neg]
      exact hcmp
    · simp [sign_pos_iff, NumericLiteral.value]
    · simp [sign_neg_iff, NumericLiteral.value]

end Compare

-- The integer literal keeps its value, or moves away from the rows it would add.
def FloatReadsExactly (op : CompareOp) : NumericLiteral → Prop
  | .int i => (op = .eq → roundInt i = i) ∧ (op = .le → roundInt i ≤ i)
  | .double _ => True

def TimestampReadsExactly (op : CompareOp) : NumericLiteral → Prop
  | .int _ => True
  | .double q => (op = .eq → (int64OfFloat q : ℚ) = q) ∧ (op = .le → (int64OfFloat q : ℚ) ≤ q) ∧
      (op = .gt → q < 2 ^ 63) ∧ (op = .ge → q ≤ int64OfFloat q)

section Float

variable {op : CompareOp} {lit : NumericLiteral} {a : FloatValue} {x : ℚ}

theorem FloatValue.less_finite_of_le {y : ℚ} (h : a.less (.finite x))
    (hle : x ≤ y) : a.less (.finite y) := by
  cases a with
  | finite q => exact decide_eq_true ((of_decide_eq_true h).trans_le hle)
  | negInf => rfl
  | nan => cases h
  | posInf => cases h

theorem FloatValue.less_trans {b : FloatValue} (h : a.less (.finite x))
    (h' : (FloatValue.finite x).less b) : a.less b := by
  cases b with
  | finite q => exact a.less_finite_of_le h (of_decide_eq_true h').le
  | posInf =>
    cases a with
    | finite q => rfl
    | negInf => rfl
    | nan => cases h
    | posInf => cases h
  | nan => cases h'
  | negInf => cases h'

theorem const_le_of_not_less (hlit : lit.Valid) {lo : ℚ} (hlo : IsDouble lo)
    (h : lit.value ≤ lo) : float64FilterConst lit ≤ lo := by
  cases lit with
  | int i => exact roundInt_le_of_le hlo h
  | double q => exact h

theorem floatPruneSafe_of_exact (hlit : lit.Valid) (hexact : FloatReadsExactly op lit) :
    FloatPruneSafe op lit := by
  intro stats rows hbounds hprune v hv hkeeps
  obtain hnull | ⟨lo, hi, hlo, hhi, hexclude, hfloat⟩ := canPruneRowGroup_inv hprune
  · exact not_mem_of_nulls hbounds.nulls hnull hv
  obtain ⟨low, rfl, hlow, hmin⟩ := hbounds.min lo hlo
  obtain ⟨high, rfl, -, hmax⟩ := hbounds.max hi hhi
  obtain ⟨c, hcmp, -⟩ := compares_float hlit low
  obtain ⟨d, hcmp', -⟩ := compares_float hlit high
  have hminv := Bool.eq_false_iff.mp (hmin v hv)
  rw [boundsExclude_iff hcmp hcmp'] at hexclude
  obtain rfl | rfl | rfl := hfloat (.inl rfl)
  · have hconst : float64FilterConst lit = lit.value := by
      cases lit with
      | int i => exact congrArg Int.cast (hexact.1 rfl)
      | double q => rfl
    obtain rfl : v = .finite lit.value := by rw [← hconst]; exact hkeeps
    exact hexclude.elim hminv (Bool.eq_false_iff.mp (hmax _ hv))
  · refine hminv ?_
    cases low with
    | nan => exact absurd hcmp.left.symm (by cases lit <;> exact hexclude.1)
    | negInf => exact absurd rfl hexclude.2
    | posInf => exact FloatValue.less_trans hkeeps rfl
    | finite l =>
      have hle : lit.value ≤ l := by simpa [FloatValue.less] using hexclude.2
      exact FloatValue.less_finite_of_le hkeeps (const_le_of_not_less hlit hlow hle)
  · have hconst : float64FilterConst lit ≤ lit.value := by
      cases lit with
      | int i => exact Int.cast_le.mpr (hexact.2 rfl)
      | double q => exact le_rfl
    refine hminv ?_
    obtain hless | rfl := hkeeps
    · exact FloatValue.less_trans (FloatValue.less_finite_of_le hless hconst) hexclude
    · cases low with
      | nan | negInf => cases hexclude
      | posInf => rfl
      | finite l => exact decide_eq_true (hconst.trans_lt (of_decide_eq_true hexclude))

theorem floatBounds_single {q : ℚ} (hq : IsDouble q) :
    FloatBounds ⟨true, some (.float (.finite q)), some (.float (.finite q)), 0⟩ [some (.finite q)] := by
  have hself : ∀ v, some v ∈ [some (FloatValue.finite q)] → v = .finite q := by simp
  have hnot : (FloatValue.finite q).less (.finite q) = false := by simp [FloatValue.less]
  refine ⟨fun v hv => ?_, rfl, fun box hbox => ?_, fun box hbox => ?_⟩
  · rw [hself v hv]
    exact hq
  · exact ⟨_, (some.inj hbox).symm, hq, fun v hv => by rw [hself v hv, hnot]⟩
  · exact ⟨_, (some.inj hbox).symm, hq, fun v hv => by rw [hself v hv, hnot]⟩

theorem floatPruneSafe_iff (hlit : lit.Valid) : FloatPruneSafe op lit ↔ FloatReadsExactly op lit := by
  refine ⟨fun hsafe => ?_, floatPruneSafe_of_exact hlit⟩
  cases lit with
  | double q => exact trivial
  | int i =>
    have hmachine : IsDouble (roundInt i : ℚ) := by
      obtain ⟨hlow, hhigh⟩ := hlit
      exact isDouble_roundInt (by omega)
    obtain ⟨c, hcmp, -⟩ := compares_float hlit (.finite (roundInt i))
    have hsingle (hop : op = .eq ∨ op = .lt ∨ op = .le) (hexclude : boundsExclude op _ _ _) :=
      hsafe _ _ (floatBounds_single hmachine)
        (canPruneRowGroup_of_excludes rfl (by simp) rfl rfl (fun _ => hop) hexclude) _
        (List.mem_singleton.mpr rfl)
    rw [boundsExclude_iff hcmp hcmp] at hsingle
    constructor
    · rintro rfl
      by_contra hne
      refine hsingle (.inl rfl) ?_ rfl
      simp only [NumericLiteral.value, FloatValue.less, decide_eq_true_eq, Int.cast_lt]
      omega
    · rintro rfl
      by_contra hgt
      refine hsingle (.inr (.inr rfl)) ?_ (.inr rfl)
      exact decide_eq_true (Int.cast_lt.mpr (not_le.mp hgt))

end Float

section Timestamp

variable {op : CompareOp} {lit : NumericLiteral}

theorem int64OfFloat_range (q : ℚ) : -2 ^ 63 ≤ int64OfFloat q ∧ int64OfFloat q < 2 ^ 63 := by
  unfold int64OfFloat
  split_ifs with h
  · exact h
  · decide

theorem int64OfFloat_intCast {i : Int} (h : -2 ^ 63 ≤ i ∧ i < 2 ^ 63) : int64OfFloat i = i := by
  rw [int64OfFloat, truncated_intCast, if_pos h]

variable {q : ℚ} {b : Int}

theorem int64OfFloat_le (hb : -2 ^ 63 ≤ b) (h : q ≤ b) : int64OfFloat q ≤ b := by
  unfold int64OfFloat
  split_ifs
  · unfold truncated
    split_ifs
    · exact Int.ceil_le.mpr h
    · exact Int.floor_le_iff.mpr (h.trans_lt (lt_add_one _))
  · exact hb

theorem le_int64OfFloat (hb : -2 ^ 63 ≤ b) (h : (b : ℚ) ≤ q) (hq : q < 2 ^ 63) :
    b ≤ int64OfFloat q := by
  have hfloor : b ≤ ⌊q⌋ := Int.le_floor.mpr h
  have htrunc : b ≤ truncated q := by
    unfold truncated
    split_ifs
    · exact hfloor.trans (Int.floor_le_ceil q)
    · exact hfloor
  have hupper : truncated q < 2 ^ 63 := by
    unfold truncated
    split_ifs with hneg
    · have hceil : ⌈q⌉ ≤ 0 := Int.ceil_le.mpr (by exact_mod_cast hneg.le)
      omega
    · exact Int.floor_lt.mpr (by exact_mod_cast hq)
  rw [int64OfFloat, if_pos ⟨hb.trans htrunc, hupper⟩]
  exact htrunc

theorem timestampConst_le (hlit : lit.Valid) (hb : -2 ^ 63 ≤ b)
    (h : lit.value ≤ b) : timestampFilterConst lit ≤ b := by
  cases lit with
  | int i => exact Int.cast_le.mp h
  | double q => exact int64OfFloat_le hb h

theorem le_timestampConst (hexact : TimestampReadsExactly .gt lit) (hb : -2 ^ 63 ≤ b)
    (h : (b : ℚ) ≤ lit.value) : b ≤ timestampFilterConst lit := by
  cases lit with
  | int i => exact Int.cast_le.mp h
  | double q => exact le_int64OfFloat hb h (hexact.2.2.1 rfl)

theorem timestampPruneSafe_of_exact (hlit : lit.Valid) (hexact : TimestampReadsExactly op lit) :
    TimestampPruneSafe op lit := by
  intro stats rows hbounds hprune v hv hkeeps
  obtain hnull | ⟨lo, hi, hlo, hhi, hexclude, -⟩ := canPruneRowGroup_inv hprune
  · exact not_mem_of_nulls hbounds.nulls hnull hv
  obtain ⟨low, rfl, hlow, hmin⟩ := hbounds.min lo hlo
  obtain ⟨high, rfl, hhigh, hmax⟩ := hbounds.max hi hhi
  have hminv := hmin v hv
  have hmaxv := hmax v hv
  obtain ⟨c, hcmp⟩ := compares_int hlit hlow
  obtain ⟨d, hcmp'⟩ := compares_int hlit hhigh
  rw [boundsExclude_iff hcmp hcmp'] at hexclude
  cases op with
  | eq =>
    have hconst : (timestampFilterConst lit : ℚ) = lit.value := by
      cases lit with
      | int i => rfl
      | double q => exact hexact.1 rfl
    obtain rfl : v = timestampFilterConst lit := hkeeps
    simp only [← hconst, Int.cast_lt] at hexclude
    omega
  | lt =>
    have hle := timestampConst_le hlit hlow.1 (not_lt.mp hexclude.2)
    exact absurd hkeeps (not_lt.mpr (hle.trans hminv))
  | le =>
    have hconst : (timestampFilterConst lit : ℚ) ≤ lit.value := by
      cases lit with
      | int i => exact le_rfl
      | double q => exact hexact.2.1 rfl
    have hlt : timestampFilterConst lit < low := Int.cast_lt.mp (hconst.trans_lt hexclude)
    exact hkeeps (hlt.trans_le hminv)
  | gt =>
    have hle := le_timestampConst hexact hhigh.1 (not_lt.mp hexclude.2)
    exact absurd hkeeps (not_lt.mpr (hmaxv.trans hle))
  | ge =>
    have hconst : lit.value ≤ timestampFilterConst lit := by
      cases lit with
      | int i => exact le_rfl
      | double q => exact hexact.2.2.2 rfl
    have hlt : high < timestampFilterConst lit := Int.cast_lt.mp (hexclude.trans_le hconst)
    exact hkeeps (hmaxv.trans_lt hlt)
  | ne =>
    obtain ⟨hsame, hzero⟩ := hexclude
    have hbothzero : cmpOrdered low high = 0 := beq_iff_eq.mp hsame
    have hnotlt := (cmpOrdered_neg_iff low high).not.mp (by omega)
    have hvalue : lit.value = low :=
      le_antisymm (not_lt.mp (hcmp.pos.not.mp (by simp [hzero])))
        (not_lt.mp (hcmp.neg.not.mp (by simp [hzero])))
    have hconst : timestampFilterConst lit = low := by
      cases lit with
      | int i => exact Int.cast_injective hvalue
      | double q =>
        rw [timestampFilterConst, show q = (low : ℚ) from hvalue, int64OfFloat_intCast hlow]
    exact hkeeps (by omega)
  | isNull => exact hkeeps
  | isNotNull => exact hkeeps

theorem timestampBounds_single {c : Int} (hc : -2 ^ 63 ≤ c ∧ c < 2 ^ 63) :
    TimestampBounds ⟨true, some (.int c), some (.int c), 0⟩ [some c] := by
  have hself : ∀ v, some v ∈ [some c] → v = c := by simp
  refine ⟨fun v hv => ?_, rfl, fun box hbox => ?_, fun box hbox => ?_⟩
  · rw [hself v hv]
    exact hc
  · exact ⟨c, (some.inj hbox).symm, hc, fun v hv => (hself v hv).ge⟩
  · exact ⟨c, (some.inj hbox).symm, hc, fun v hv => (hself v hv).le⟩

theorem timestampPruneSafe_iff (hlit : lit.Valid) :
    TimestampPruneSafe op lit ↔ TimestampReadsExactly op lit := by
  refine ⟨fun hsafe => ?_, timestampPruneSafe_of_exact hlit⟩
  cases lit with
  | int i => exact trivial
  | double q =>
    have hrange := int64OfFloat_range q
    obtain ⟨c, hcmp⟩ := compares_int hlit hrange
    -- A row group of one value is pruned where the literal excludes it.
    have hsingle (x : Int) (hx : -2 ^ 63 ≤ x ∧ x < 2 ^ 63)
        (hexclude : boundsExclude op (NumericLiteral.double q).box (.int x) (.int x)) :
        ¬ holds op x (int64OfFloat q) :=
      hsafe _ _ (timestampBounds_single hx)
        (canPruneRowGroup_of_excludes rfl (by simp) rfl rfl (by rintro (h | h) <;> cases h) hexclude)
        x (List.mem_singleton.mpr rfl)
    have hself := hsingle _ hrange
    rw [boundsExclude_iff hcmp hcmp] at hself
    refine ⟨?_, ?_, ?_, ?_⟩
    · rintro rfl
      by_contra hne
      exact hself (lt_or_gt_of_ne fun h => hne h.symm) rfl
    · rintro rfl
      by_contra hgt
      exact hself (not_le.mp hgt) (lt_irrefl _)
    · rintro rfl
      by_contra hge
      have hlarge : int64OfFloat q = -2 ^ 63 := by
        have htrunc : 2 ^ 63 ≤ truncated q := by
          rw [truncated, if_neg (by linarith)]
          exact Int.le_floor.mpr (by exact_mod_cast not_lt.mp hge)
        rw [int64OfFloat, if_neg (by omega)]
      have hbelow : (-2 ^ 63 : Int) < 0 := by decide
      obtain ⟨z, hzero⟩ := compares_int hlit (b := 0) (by decide)
      refine hsingle 0 (by decide) ?_ (hlarge ▸ hbelow)
      rw [boundsExclude_iff hzero hzero]
      exact ⟨nofun, not_lt.mpr (le_trans (by norm_num) (not_lt.mp hge))⟩
    · rintro rfl
      by_contra hlt
      exact hself (not_le.mp hlt) (lt_irrefl _)

end Timestamp

-- The prune and the filter agree on a numeric literal exactly where the filter's
-- conversion does not move the literal across a value that the column can hold.
theorem numericPrune_safe_iff {op : CompareOp} {lit : NumericLiteral} (hlit : lit.Valid) :
    (FloatPruneSafe op lit ↔ FloatReadsExactly op lit) ∧
      (TimestampPruneSafe op lit ↔ TimestampReadsExactly op lit) :=
  ⟨floatPruneSafe_iff hlit, timestampPruneSafe_iff hlit⟩

theorem numericPrune_safe_small :
    FloatPruneSafe .le (.int 7) ∧ TimestampPruneSafe .le (.int 7) := by
  have hsafe := @numericPrune_safe_iff .le (.int 7) ⟨by decide, by decide⟩
  exact ⟨hsafe.1.mpr ⟨fun _ => by decide, fun _ => by decide⟩, hsafe.2.mpr trivial⟩

-- The row 2^53 of a float column is lost to `= 2^53 + 1`, and the row 1 of a
-- timestamp column to `>= 1.5`.
theorem numericPrune_loses :
    ¬ FloatPruneSafe .eq (.int (2 ^ 53 + 1)) ∧ ¬ TimestampPruneSafe .ge (.double (3 / 2)) := by
  constructor
  · have hvalid : (NumericLiteral.int (2 ^ 53 + 1)).Valid := ⟨by decide, by decide⟩
    rw [floatPruneSafe_iff hvalid]
    intro hexact
    exact absurd (hexact.1 rfl) (by decide)
  · have hvalid : (NumericLiteral.double (3 / 2)).Valid :=
      ⟨3, -1, by norm_num, by norm_num, by norm_num, by norm_num⟩
    rw [timestampPruneSafe_iff hvalid]
    intro hexact
    have htrunc : truncated (3 / 2) = 1 := by
      rw [truncated]
      norm_num
    have hle := hexact.2.2.2 rfl
    rw [int64OfFloat, htrunc] at hle
    norm_num at hle

end Wadjet.Engine.Scan
