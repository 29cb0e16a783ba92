import Wadjet.Data.Codes
import Wadjet.Data.Wide

namespace Wadjet.Storage.Parquet

open Wadjet.Data Option List

-- A byte slice; none is longer than the address space.
structure Bytes where
  data : List UInt8
  fits : data.length < 2 ^ 48

inductive VarintError where
  | truncated
  | overflow
deriving DecidableEq

inductive RleError where
  | header (cause : VarintError)
  | value (need left : Nat)
  | groupCountOverflow (groupCount : Int)
  | byteCountOverflow
  | pastEnd (need : Int) (off left : Nat)
deriving DecidableEq

def maxPageValues : Nat :=
  2 ^ 24

-- The tenth byte of a varint keeps the one bit that fits the word.
def readVarintFrom (data : List UInt8) (off shift result : Nat) : Except VarintError (Nat × Nat) :=
  match data[off]? with
  | none => .error .truncated
  | some b =>
    let result := result ||| ((b.toNat &&& 0x7F) <<< shift) % 2 ^ 64
    if b.toNat &&& 0x80 = 0 then .ok (result, off + 1)
    else if 64 ≤ shift + 7 then .error .overflow
    else readVarintFrom data (off + 1) (shift + 7) result
termination_by 64 - shift

variable (data : List UInt8)

def readVarint (off : Nat) : Except VarintError (Nat × Nat) :=
  readVarintFrom data off 0 0

-- Bytes past the end of the slice read as zero.
def load (off n : Nat) : BitVec 32 :=
  BitVec.ofNat 32 (ofLittleEndian ((data.drop off).take n))

def readRLEValue (bitWidth off : Nat) : Except RleError (BitVec 32 × Nat) :=
  let byteCount := (bitWidth + 7) / 8
  if data.length < off + byteCount then .error (.value byteCount (data.length - off))
  else .ok (load data off byteCount, off + byteCount)

-- Value i of a packed group starts at bit i * bitWidth and is read from four
-- bytes.
def bitPackedValue (bitWidth i : Nat) : BitVec 32 :=
  if bitWidth = 0 then 0
  else
    let mask := (1#32 <<< bitWidth) - 1#32
    let bitPos := i * bitWidth
    (load data (bitPos / 8) 4 >>> (bitPos % 8)) &&& mask

def decodeBitPackedRange (bitWidth start n : Nat) : List (BitVec 32) :=
  (range n).map fun i => bitPackedValue data bitWidth (start + i)

-- Allocating a negative number of values panics.
def decodeBitPacked (bitWidth : Nat) (n : Int) : Option (List (BitVec 32)) :=
  if n < 0 then none else some (decodeBitPackedRange data bitWidth 0 n.toNat)

def slice {α : Type} (data : List α) (low high : Int) : Option (List α) :=
  if 0 ≤ low ∧ low ≤ high ∧ high ≤ data.length then
    some ((data.drop low.toNat).take (high - low).toNat)
  else none

variable (dst : List (BitVec 32))

-- Stores at the indices from pos up to stop, each of them checked.
def fill (pos stop : Int) (val : BitVec 32) : Option (List (BitVec 32)) :=
  if stop ≤ pos then some dst
  else if 0 ≤ pos ∧ stop ≤ dst.length then
    some (dst.take pos.toNat ++ replicate (stop - pos).toNat val ++ dst.drop stop.toNat)
  else none

def copyInto (pos stop : Int) (values : List (BitVec 32)) : Option (List (BitVec 32)) :=
  if 0 ≤ pos ∧ pos ≤ stop ∧ stop ≤ dst.length then
    let written := values.take (stop - pos).toNat
    some (dst.take pos.toNat ++ written ++ dst.drop (pos.toNat + written.length))
  else none

def storeDecoded (pos : Int) (decoded : List (BitVec 32)) : Option (Int × List (BitVec 32)) :=
  let n : Int :=
    if (dst.length : Int) < wrap64 (pos + decoded.length) then wrap64 (dst.length - pos)
    else decoded.length
  (copyInto dst pos (wrap64 (pos + n)) decoded).map fun dst => (wrap64 (pos + n), dst)

structure Decoded where
  n : Int
  err : Option RleError
  dst : List (BitVec 32)

inductive DecodeStep where
  | stop (out : Decoded)
  | more (off : Nat) (pos : Int) (dst : List (BitVec 32))

section Decode

variable (data : List UInt8) (bitWidth : Nat) (strict : Bool)

def decodePacked (groupCount : Int) (off : Nat) (pos : Int) (dst : List (BitVec 32)) :
    Option DecodeStep :=
  let numValues := wrap64 (groupCount * 8)
  if numValues < 0 ∨ numValues.tdiv 8 ≠ groupCount then
    some (.stop ⟨pos, some (.groupCountOverflow groupCount), dst⟩)
  else
    let remaining := wrap64 (dst.length - pos)
    let numValues := if remaining < numValues then remaining else numValues
    let byteCount := wrap64 (groupCount * bitWidth)
    if byteCount < 0 then some (.stop ⟨pos, some .byteCountOverflow, dst⟩)
    else if (data.length : Int) < wrap64 (off + byteCount) ∧ strict then
      some (.stop ⟨pos, some (.pastEnd byteCount off (data.length - off)), dst⟩)
    else
      let byteCount :=
        if (data.length : Int) < wrap64 (off + byteCount) then (data.length : Int) - off
        else byteCount
      (slice data off (wrap64 (off + byteCount))).bind fun bytes =>
        (decodeBitPacked bytes bitWidth numValues).bind fun decoded =>
          (storeDecoded dst pos decoded).map fun out =>
            .more (off + byteCount.toNat) out.1 out.2

-- One group of the stream. No result is a panic.
def decodeGroup (off : Nat) (pos : Int) (dst : List (BitVec 32)) : Option DecodeStep :=
  match readVarint data off with
  | .error e => some (.stop ⟨pos, some (.header e), dst⟩)
  | .ok (header, off) =>
    if header % 2 = 0 then
      match readRLEValue data bitWidth off with
      | .error e => some (.stop ⟨pos, some e, dst⟩)
      | .ok (val, off) =>
        let stop := wrap64 (pos + (header / 2 : Nat))
        let stop := if (dst.length : Int) < stop then (dst.length : Int) else stop
        (fill dst pos stop val).map fun dst => .more off stop dst
    else if header / 2 = 0 then some (.more off pos dst)
    else decodePacked data bitWidth strict (header / 2 : Nat) off pos dst

end Decode

variable {data : List UInt8} {off header next : Nat}

theorem readVarintFrom_spec {shift result : Nat}
    (h : readVarintFrom data off shift result = .ok (header, next)) :
    (off < next ∧ next ≤ data.length) ∧ (result < 2 ^ 64 → header < 2 ^ 64) := by
  have hor {result : Nat} (bits : Nat) (hresult : result < 2 ^ 64) :
      result ||| bits % 2 ^ 64 < 2 ^ 64 :=
    Nat.or_lt_two_pow hresult (Nat.mod_lt _ (by decide))
  induction off, shift, result using readVarintFrom.induct data with
  | case1 off shift result hnone =>
    rw [readVarintFrom, hnone] at h
    cases h
  | case2 off shift result b hb hlast =>
    have hlt := (List.getElem?_eq_some_iff.mp hb).1
    rw [readVarintFrom, hb] at h
    simp only [if_pos hlast, Except.ok.injEq, Prod.mk.injEq] at h
    exact ⟨by omega, fun hresult => h.1 ▸ hor _ hresult⟩
  | case3 off shift result b hb hlast hwide =>
    rw [readVarintFrom, hb] at h
    simp only [if_neg hlast, if_pos hwide] at h
    cases h
  | case4 off shift result b hb result' hlast hwide ih =>
    rw [readVarintFrom, hb] at h
    simp only [if_neg hlast, if_neg hwide] at h
    obtain ⟨hprogress, hlt⟩ := ih h
    exact ⟨by omega, fun hresult => hlt (hor _ hresult)⟩

theorem readVarint_progress
    (h : readVarint data off = .ok (header, next)) : off < next ∧ next ≤ data.length :=
  (readVarintFrom_spec h).1

theorem readVarint_lt (h : readVarint data off = .ok (header, next)) : header < 2 ^ 64 :=
  (readVarintFrom_spec h).2 (by decide)

variable {bitWidth : Nat}

theorem readRLEValue_progress {val : BitVec 32}
    (h : readRLEValue data bitWidth off = .ok (val, next)) : off ≤ next ∧ next ≤ data.length := by
  unfold readRLEValue at h
  dsimp only at h
  split_ifs at h with hshort
  simp only [Except.ok.injEq, Prod.mk.injEq] at h
  omega

theorem decodeGroup_progress {strict : Bool} {pos pos' : Int} {dst dst' : List (BitVec 32)}
    (h : decodeGroup data bitWidth strict off pos dst = some (.more next pos' dst')) :
    off < next := by
  unfold decodeGroup at h
  split at h
  · cases h
  · rename_i header off1 hvarint
    have hprogress := (readVarint_progress hvarint).1
    split_ifs at h with heven hzero
    · split at h
      · cases h
      · rename_i val off2 hvalue
        have hmore := (readRLEValue_progress hvalue).1
        simp only [map_eq_some_iff, DecodeStep.more.injEq] at h
        omega
    · simp only [some.injEq, DecodeStep.more.injEq] at h
      omega
    · unfold decodePacked at h
      dsimp only at h
      split_ifs at h <;>
        simp only [bind_eq_some_iff, map_eq_some_iff, some.injEq,
          DecodeStep.more.injEq] at h <;>
        obtain ⟨-, -, -, -, -, -, rfl, -⟩ := h <;>
        exact Nat.lt_add_right _ hprogress

def decodeLoop (data : List UInt8) (bitWidth : Nat) (strict : Bool) (off : Nat) (pos : Int)
    (dst : List (BitVec 32)) : Option Decoded :=
  if off < data.length ∧ pos < dst.length then
    match _hstep : decodeGroup data bitWidth strict off pos dst with
    | none => none
    | some (.stop out) => some out
    | some (.more next pos dst) => decodeLoop data bitWidth strict next pos dst
  else some ⟨pos, none, dst⟩
termination_by data.length - off
decreasing_by
  have hprogress := decodeGroup_progress _hstep
  omega

theorem decodeLoop_eq (data : List UInt8) (bitWidth : Nat) (strict : Bool) (off : Nat) (pos : Int)
    (dst : List (BitVec 32)) : decodeLoop data bitWidth strict off pos dst =
      if off < data.length ∧ pos < dst.length then
        match decodeGroup data bitWidth strict off pos dst with
        | none => none
        | some (.stop out) => some out
        | some (.more next pos dst) => decodeLoop data bitWidth strict next pos dst
      else some ⟨pos, none, dst⟩ := by
  rw [decodeLoop]
  congr 1
  split <;> rename_i heq <;> rw [heq]

def decodeAllBatch (data : Bytes) (bitWidth : Nat) (strict : Bool) (dst : List (BitVec 32)) :
    Option Decoded :=
  decodeLoop data.data bitWidth strict 0 0 dst

end Wadjet.Storage.Parquet
