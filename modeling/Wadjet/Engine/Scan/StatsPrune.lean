import Mathlib.Data.Sign.Basic
import Mathlib.Data.UInt
import Wadjet.Data.Truncated

namespace Wadjet.Engine.Scan

open Wadjet.Data

inductive FloatValue where
  | nan
  | negInf
  | finite (q : ℚ)
  | posInf
deriving DecidableEq

-- The machine's `<`: a NaN is below nothing and above nothing.
def FloatValue.less : FloatValue → FloatValue → Bool
  | .finite a, .finite b => a < b
  | .negInf, .finite _ => true
  | .negInf, .posInf => true
  | .finite _, .posInf => true
  | _, _ => false

-- A value in its box: an integer of any width, a float, a text or the key of an
-- address range.
inductive Box where
  | int (v : Int)
  | float (f : FloatValue)
  | text (s : List UInt8)
  | cidrKey (key : List UInt8)
deriving DecidableEq

inductive CompareOp where
  | eq
  | ne
  | lt
  | le
  | gt
  | ge
  | isNull
  | isNotNull
deriving DecidableEq

def cmpOrdered {α : Type} [LT α] [DecidableLT α] (a b : α) : Int :=
  if a < b then -1 else if b < a then 1 else 0

def cmpInt64Float64 (i : Int) : FloatValue → Option Int
  | .nan => none
  | .posInf => some (-1)
  | .negInf => some 1
  | .finite f =>
    if 2 ^ 63 ≤ f then some (-1)
    else if f < -2 ^ 63 then some 1
    else
      let t := truncated f
      if i ≠ t then some (cmpOrdered i t)
      else if 0 < f - t then some (-1)
      else if f - t < 0 then some 1
      else some 0

def cmpFloat (a b : FloatValue) : Int :=
  if a.less b then -1 else if b.less a then 1 else 0

-- Boxes of two kinds compare only where the comparison is exact.
def compareValuesOK : Box → Box → Option Int
  | .int a, .int b => some (cmpOrdered a b)
  | .int a, .float b => cmpInt64Float64 a b
  | .float a, .float b => if a = .nan ∨ b = .nan then none else some (cmpFloat a b)
  | .float a, .int b => (cmpInt64Float64 b a).map (- ·)
  | .cidrKey a, .cidrKey b => some (cmpOrdered a b)
  | .text a, .text b => some (cmpOrdered a b)
  | _, _ => none

structure ColumnBounds where
  hasStats : Bool
  min : Option Box
  max : Option Box
  nullCount : Nat

def isFloatBound : Box → Bool
  | .float _ => true
  | _ => false

variable (op : CompareOp)

def boundsExclude (value min max : Box) : Bool :=
  match op with
  | .eq => (compareValuesOK value min).any (· < 0) || (compareValuesOK value max).any (0 < ·)
  | .lt => (compareValuesOK min value).any (0 ≤ ·)
  | .le => (compareValuesOK min value).any (0 < ·)
  | .gt => (compareValuesOK max value).any (· ≤ 0)
  | .ge => (compareValuesOK max value).any (· < 0)
  | .ne => (compareValuesOK min max).any (· == 0) && (compareValuesOK min value).any (· == 0)
  | .isNull => false
  | .isNotNull => false

def canPruneRowGroup (value : Box) (stats : Option ColumnBounds) (numRows : Nat) : Bool :=
  match stats with
  | none => false
  | some stats =>
    if stats.hasStats = false then false
    else if stats.nullCount = numRows then op != .isNull
    else if op = .isNull ∨ op = .isNotNull then false
    else
      match stats.min, stats.max with
      | some min, some max =>
        -- A float column's bounds say nothing about its NaN rows.
        if (isFloatBound min || isFloatBound max) &&
          (op == .gt || op == .ge || op == .ne) then false
        else boundsExclude op value min max
      | _, _ => false

def holds {α : Type} [LT α] (op : CompareOp) (a b : α) : Prop :=
  match op with
  | .eq => a = b
  | .ne => a ≠ b
  | .lt => a < b
  | .le => ¬ b < a
  | .gt => b < a
  | .ge => ¬ a < b
  | .isNull => False
  | .isNotNull => False

variable {op : CompareOp} {value : Box} {stats : ColumnBounds} {numRows : Nat}

theorem canPruneRowGroup_inv (h : canPruneRowGroup op value (some stats) numRows) :
    stats.nullCount = numRows ∨
      ∃ min max, stats.min = some min ∧ stats.max = some max ∧
        boundsExclude op value min max ∧
        (isFloatBound min ∨ isFloatBound max → op = .eq ∨ op = .lt ∨ op = .le) := by
  simp only [canPruneRowGroup] at h
  by_cases hnull : stats.nullCount = numRows
  · exact .inl hnull
  rw [if_neg hnull] at h
  split_ifs at h
  split at h
  next min max hmin hmax =>
    split_ifs at h with hfloat
    refine .inr ⟨min, max, hmin, hmax, h, ?_⟩
    cases op <;> simp_all
  next => cases h

theorem canPruneRowGroup_of_excludes {min max : Box} (hstats : stats.hasStats)
    (hnull : stats.nullCount ≠ numRows) (hmin : stats.min = some min) (hmax : stats.max = some max)
    (hfloat : isFloatBound min ∨ isFloatBound max → op = .eq ∨ op = .lt ∨ op = .le)
    (h : boundsExclude op value min max) :
    canPruneRowGroup op value (some stats) numRows := by
  have hop : ¬ (op = .isNull ∨ op = .isNotNull) := by
    rintro (rfl | rfl) <;> cases h
  have hnan : ¬ ((isFloatBound min || isFloatBound max) &&
      (op == .gt || op == .ge || op == .ne)) := by
    rw [Bool.and_eq_true, Bool.or_eq_true]
    rintro ⟨hbound, hcompare⟩
    obtain rfl | rfl | rfl := hfloat hbound <;> cases hcompare
  simp only [canPruneRowGroup]
  rw [if_neg (by simp [hstats]), if_neg hnull, if_neg hop, hmin, hmax]
  dsimp only
  rw [if_neg hnan]
  exact h

section Order

variable {α : Type} [LinearOrder α]

theorem cmpOrdered_neg_iff (a b : α) : cmpOrdered a b < 0 ↔ a < b := by
  unfold cmpOrdered
  split_ifs with hlt hgt
  · simp [hlt]
  · simp [hlt]
  · simp [hlt]

theorem cmpOrdered_pos_iff (a b : α) : 0 < cmpOrdered a b ↔ b < a := by
  unfold cmpOrdered
  split_ifs with hlt hgt
  · simp [hlt.le]
  · simp [hgt]
  · simp [hgt]

end Order

theorem cmpOrdered_intCast (i t : Int) :
    cmpOrdered i t = (SignType.sign ((i : ℚ) - t) : ℤ) := by
  rw [cmpOrdered, ← Int.cast_sub, sign_intCast, sign_apply]
  simp only [sub_pos, sub_neg]
  split_ifs <;> first | rfl | omega

theorem cmpInt64Float64_finite {i : Int} (hlow : -2 ^ 63 ≤ i) (hhigh : i < 2 ^ 63) (f : ℚ) :
    cmpInt64Float64 i (.finite f) = some (SignType.sign ((i : ℚ) - f) : ℤ) := by
  have hlow' : (-2 ^ 63 : ℚ) ≤ i := by exact_mod_cast hlow
  have hhigh' : (i : ℚ) < 2 ^ 63 := by exact_mod_cast hhigh
  rw [cmpInt64Float64]
  by_cases habove : 2 ^ 63 ≤ f
  · rw [if_pos habove, sign_neg (by linarith)]
    rfl
  rw [if_neg habove]
  by_cases hbelow : f < -2 ^ 63
  · rw [if_pos hbelow, sign_pos (by linarith)]
    rfl
  rw [if_neg hbelow]
  have hnear := truncated_near f
  by_cases hsame : i = truncated f
  · rw [if_neg (not_not.mpr hsame), hsame]
    by_cases hpos : 0 < f - truncated f
    · rw [if_pos hpos, sign_neg (by linarith)]
      rfl
    rw [if_neg hpos]
    by_cases hneg : f - truncated f < 0
    · rw [if_pos hneg, sign_pos (by linarith)]
      rfl
    · rw [if_neg hneg, show (truncated f : ℚ) - f = 0 by linarith]
      rfl
  · rw [if_pos hsame, cmpOrdered_intCast]
    obtain hlt | hgt := lt_or_gt_of_ne hsame
    · have hstep : (i : ℚ) + 1 ≤ truncated f := by exact_mod_cast hlt
      rw [sign_neg (by linarith), sign_neg (by linarith [abs_lt.mp hnear])]
    · have hstep : (truncated f : ℚ) + 1 ≤ i := by exact_mod_cast hgt
      rw [sign_pos (by linarith), sign_pos (by linarith [abs_lt.mp hnear])]

end Wadjet.Engine.Scan
