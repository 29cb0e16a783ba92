import Wadjet.Storage.Parquet.RleRuns

namespace Wadjet.Storage.Parquet

open Wadjet.Data

theorem length_decodeBitPackedRange (data : List UInt8) (bitWidth start n : Nat) :
    (decodeBitPackedRange data bitWidth start n).length = n := by
  simp [decodeBitPackedRange, List.length_range]

-- The values of one group: one repeated, or the leading ones of packed bytes.
inductive Burst where
  | run (val : BitVec 32) (n : Nat)
  | packed (bytes : List UInt8) (n : Nat)

def Burst.values (bitWidth : Nat) : Burst → List (BitVec 32)
  | .run val n => List.replicate n val
  | .packed bytes n => decodeBitPackedRange bytes bitWidth 0 n

def Burst.size : Burst → Nat
  | .run _ n => n
  | .packed _ n => n

theorem Burst.length_values (bitWidth : Nat) (burst : Burst) :
    (burst.values bitWidth).length = burst.size := by
  cases burst with
  | run val n => exact List.length_replicate
  | packed bytes n => exact length_decodeBitPackedRange bytes bitWidth 0 n

-- A group wraps where a sum that places its values or its bytes is past the
-- machine integers.
inductive Group where
  | fail (err : RleError)
  | wraps
  | emit (burst : Burst) (next : Nat)

section Exact

variable (data : List UInt8) (bitWidth : Nat) (strict : Bool) (count : Nat)

def packedAt (groupCount off pos : Nat) : Group :=
  if 2 ^ 63 ≤ groupCount * 8 then .fail (.groupCountOverflow groupCount)
  else
    let byteCount := wrap64 (groupCount * bitWidth)
    let n := min (groupCount * 8) (count - pos)
    if byteCount < 0 then .fail .byteCountOverflow
    else if 2 ^ 63 ≤ off + byteCount.toNat then .wraps
    else if data.length < off + byteCount.toNat then
      if strict then .fail (.pastEnd byteCount off (data.length - off))
      else .emit (.packed (data.drop off) n) data.length
    else .emit (.packed ((data.drop off).take byteCount.toNat) n) (off + byteCount.toNat)

def groupAt (off pos : Nat) : Group :=
  match readVarint data off with
  | .error e => .fail (.header e)
  | .ok (header, off) =>
    if header % 2 = 0 then
      match readRLEValue data bitWidth off with
      | .error e => .fail e
      | .ok (val, off) =>
        if 2 ^ 63 ≤ pos + header / 2 then .wraps
        else .emit (.run val (min (header / 2) (count - pos))) off
    else if header / 2 = 0 then .emit (.run 0 0) off
    else packedAt data bitWidth strict count (header / 2) off pos

end Exact

theorem packedAt_progress {data : List UInt8} {bitWidth count groupCount off pos next : Nat}
    {strict : Bool} {burst : Burst} (hoff : off ≤ data.length)
    (h : packedAt data bitWidth strict count groupCount off pos = .emit burst next) :
    off ≤ next ∧ next ≤ data.length ∧ burst.size ≤ count - pos := by
  unfold packedAt at h
  dsimp only at h
  split_ifs at h <;> simp only [Group.emit.injEq] at h <;> obtain ⟨rfl, rfl⟩ := h
  · exact ⟨hoff, le_refl _, min_le_right _ _⟩
  · exact ⟨Nat.le_add_right _ _, by omega, min_le_right _ _⟩

theorem groupAt_progress {data : List UInt8} {bitWidth count off pos next : Nat} {strict : Bool}
    {burst : Burst} (h : groupAt data bitWidth strict count off pos = .emit burst next) :
    off < next ∧ next ≤ data.length ∧ burst.size ≤ count - pos := by
  unfold groupAt at h
  split at h
  · cases h
  · rename_i header off1 hvarint
    have hprogress := readVarint_progress hvarint
    by_cases heven : header % 2 = 0
    · rw [if_pos heven] at h
      split at h
      · cases h
      · rename_i val off2 hvalue
        have hmore := readRLEValue_progress hvalue
        split_ifs at h
        cases h
        exact ⟨hprogress.1.trans_le hmore.1, hmore.2, min_le_right _ _⟩
    · split_ifs at h
      · cases h
        exact ⟨hprogress.1, hprogress.2, Nat.zero_le _⟩
      · have hmore := packedAt_progress hprogress.2 h
        exact ⟨hprogress.1.trans_le hmore.1, hmore.2⟩

-- The values of a stream and the error it ends with, in unbounded integers.
-- There are none if a group wraps on the way.
def expand (data : List UInt8) (bitWidth : Nat) (strict : Bool) (count off pos : Nat) :
    Option (List (BitVec 32) × Option RleError) :=
  if off < data.length ∧ pos < count then
    match _hgroup : groupAt data bitWidth strict count off pos with
    | .fail err => some ([], some err)
    | .wraps => none
    | .emit burst next =>
      let values := burst.values bitWidth
      (expand data bitWidth strict count next (pos + values.length)).map fun rest =>
        (values ++ rest.1, rest.2)
  else some ([], none)
termination_by data.length - off
decreasing_by
  have hprogress := groupAt_progress _hgroup
  omega

theorem expand_eq (data : List UInt8) (bitWidth : Nat) (strict : Bool) (count off pos : Nat) :
    expand data bitWidth strict count off pos =
      if off < data.length ∧ pos < count then
        match groupAt data bitWidth strict count off pos with
        | .fail err => some ([], some err)
        | .wraps => none
        | .emit burst next =>
          (expand data bitWidth strict count next (pos + burst.size)).map fun rest =>
            (burst.values bitWidth ++ rest.1, rest.2)
      else some ([], none) := by
  rw [expand]
  congr 1
  split <;> rename_i heq <;> rw [heq]
  dsimp only
  rw [Burst.length_values]

def SumsFit (data : Bytes) (bitWidth : Nat) (strict : Bool) (count : Nat) : Prop :=
  (expand data.data bitWidth strict count 0 0).isSome

theorem wrap64_bounds (v : Int) : -2 ^ 63 ≤ wrap64 v ∧ wrap64 v < 2 ^ 63 := by
  unfold wrap64 Int.bmod
  dsimp only
  split_ifs <;> omega

theorem wrap64_of_ge {v : Int} (hlow : 2 ^ 63 ≤ v) (hhigh : v < 2 ^ 64) :
    wrap64 v = v - 2 ^ 64 := by
  unfold wrap64 Int.bmod
  dsimp only
  split_ifs <;> omega

theorem groupCount_guard {groupCount : Nat} (h : groupCount < 2 ^ 63) :
    (wrap64 ((groupCount : Int) * 8) < 0 ∨
        (wrap64 ((groupCount : Int) * 8)).tdiv 8 ≠ groupCount) ↔ 2 ^ 63 ≤ groupCount * 8 := by
  have hbounds := wrap64_bounds ((groupCount : Int) * 8)
  constructor
  · intro hguard
    by_contra hfit
    rw [wrap64_eq (by omega) (by omega), Int.mul_tdiv_cancel _ (by decide)] at hguard
    omega
  · intro hwide
    by_contra hguard
    rw [not_or, not_lt] at hguard
    rw [Int.tdiv_eq_ediv_of_nonneg hguard.1] at hguard
    omega

end Wadjet.Storage.Parquet
