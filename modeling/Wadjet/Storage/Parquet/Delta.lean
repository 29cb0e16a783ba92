import Wadjet.Data.Results
import Wadjet.Storage.Parquet.BitPacked

namespace Wadjet.Storage.Parquet

open Wadjet.Data List

inductive DeltaError where
  | blockSize (cause : VarintError)
  | miniblockCount (cause : VarintError)
  | totalValues (cause : VarintError)
  | firstValue (cause : VarintError)
  | tooFew (n : Int) (totalValues : Nat)
  | noMiniblocks
  | unreasonable (blockSize numMiniblocks totalValues : Nat)
  | minDelta (cause : VarintError)
  | bitWidths
  | miniblock
deriving DecidableEq

def unzigzag (v : Nat) : BitVec 64 :=
  BitVec.ofNat 64 (v / 2) ^^^ -BitVec.ofNat 64 (v % 2)

def readZigzag (data : List UInt8) (off : Nat) : Except VarintError (BitVec 64 × Nat) :=
  (readVarint data off).map fun (v, off) => (unzigzag v, off)

def follow (prev : BitVec 64) : List (BitVec 64) → List (BitVec 64)
  | [] => []
  | step :: steps => (prev + step) :: follow (prev + step) steps

structure Walk where
  off : Nat
  remaining : Nat
  result : List (BitVec 64)

section Decode

variable (data : List UInt8) (numMiniblocks miniblockSize : Nat)

def Walk.take (s : Walk) (off : Nat) (steps : List (BitVec 64)) : Walk :=
  ⟨off, s.remaining - min miniblockSize s.remaining,
    s.result ++ follow (s.result.getLastD 0) (steps.take (min miniblockSize s.remaining))⟩

def decodeMiniblock (minDelta : BitVec 64) (bw : UInt8) (s : Walk) : Except DeltaError Walk :=
  if bw = 0 then .ok (s.take miniblockSize s.off (replicate miniblockSize minDelta))
  else
    let bytesNeeded := (miniblockSize * bw.toNat + 7) / 8
    if data.length < s.off + bytesNeeded then .error .miniblock
    else
      let deltas := decodeBitPackedRange ((data.drop s.off).take bytesNeeded) bw.toNat 0 miniblockSize
      .ok (s.take miniblockSize (s.off + bytesNeeded) (deltas.map fun d => minDelta + d.signExtend 64))

def decodeMiniblocks (minDelta : BitVec 64) : List UInt8 → Walk → Except DeltaError Walk
  | [], s => .ok s
  | bw :: bitWidths, s =>
    if s.remaining = 0 then .ok s
    else (decodeMiniblock data miniblockSize minDelta bw s).bind (decodeMiniblocks minDelta bitWidths)

def decodeBlock (s : Walk) : Except DeltaError Walk :=
  match readZigzag data s.off with
  | .error e => .error (.minDelta e)
  | .ok (minDelta, off) =>
    if data.length < off + numMiniblocks then .error .bitWidths
    else decodeMiniblocks data miniblockSize minDelta ((data.drop off).take numMiniblocks)
      { s with off := off + numMiniblocks }

-- A block takes a value at least, so there are no more blocks than values.
def decodeBlocks : Nat → Walk → Except DeltaError Walk
  | 0, s => .ok s
  | fuel + 1, s =>
    if s.remaining = 0 then .ok s
    else (decodeBlock data numMiniblocks miniblockSize s).bind (decodeBlocks fuel)

end Decode

structure DeltaHeader where
  blockSize : Nat
  numMiniblocks : Nat
  totalValues : Nat
  firstValue : BitVec 64
  off : Nat

def readDeltaHeader (data : List UInt8) : Except DeltaError DeltaHeader := do
  let (blockSize, off) ← (readVarint data 0).mapError .blockSize
  let (numMiniblocks, off) ← (readVarint data off).mapError .miniblockCount
  let (totalValues, off) ← (readVarint data off).mapError .totalValues
  let (firstValue, off) ← (readZigzag data off).mapError .firstValue
  return ⟨blockSize, numMiniblocks, totalValues, firstValue, off⟩

def miniblockSizeOf (blockSize numMiniblocks : Nat) : Nat :=
  if blockSize / numMiniblocks = 0 then 1 else blockSize / numMiniblocks

def decodeDeltaBinaryPacked (data : List UInt8) (n : Int) : Except DeltaError (List (BitVec 64)) :=
  if n = 0 then .ok []
  else
    match readDeltaHeader data with
    | .error e => .error e
    | .ok h =>
      if (h.totalValues : Int) < n % 2 ^ 64 then .error (.tooFew n h.totalValues)
      else if h.numMiniblocks = 0 then .error .noMiniblocks
      else if 2 ^ 20 < h.blockSize ∨ 2 ^ 20 < h.numMiniblocks ∨ maxPageValues < h.totalValues then
        .error (.unreasonable h.blockSize h.numMiniblocks h.totalValues)
      else
        let count := min h.totalValues n.toNat
        let start : Walk := ⟨h.off, count - 1, [h.firstValue]⟩
        (decodeBlocks data h.numMiniblocks (miniblockSizeOf h.blockSize h.numMiniblocks) (count - 1) start).map
          fun s => s.result.take count

theorem length_follow (prev : BitVec 64) (steps : List (BitVec 64)) : (follow prev steps).length = steps.length := by
  induction steps generalizing prev with
  | nil => rfl
  | cons step steps ih => rw [follow, length_cons, length_cons, ih]

section Count

variable {data : List UInt8} {num size : Nat} {minDelta : BitVec 64} {s s' : Walk}

def Walk.total (s : Walk) : Nat :=
  s.result.length + s.remaining

theorem Walk.total_take {steps : List (BitVec 64)} (hsteps : steps.length = size) (off : Nat) :
    (s.take size off steps).total = s.total := by
  unfold Walk.take Walk.total
  dsimp only
  rw [length_append, length_follow, length_take]
  omega

theorem decodeMiniblock_total {bw : UInt8} (h : decodeMiniblock data size minDelta bw s = .ok s') :
    s'.total = s.total ∧ s'.remaining = s.remaining - min size s.remaining := by
  unfold decodeMiniblock at h
  dsimp only at h
  split_ifs at h
  · cases h
    exact ⟨Walk.total_take length_replicate _, rfl⟩
  · cases h
    refine ⟨Walk.total_take ?_ _, rfl⟩
    rw [length_map, length_decodeBitPackedRange]

theorem decodeMiniblocks_total (hsize : 0 < size) {bitWidths : List UInt8}
    (h : decodeMiniblocks data size minDelta bitWidths s = .ok s') :
    s'.total = s.total ∧ s'.remaining ≤ s.remaining ∧
      (bitWidths ≠ [] → s.remaining ≠ 0 → s'.remaining < s.remaining) := by
  induction bitWidths generalizing s with
  | nil =>
    cases h
    exact ⟨rfl, le_refl _, fun hne => (hne rfl).elim⟩
  | cons bw bitWidths ih =>
    rw [decodeMiniblocks] at h
    split_ifs at h with hzero
    · cases h
      exact ⟨rfl, le_refl _, fun _ hne => (hne hzero).elim⟩
    · obtain ⟨s₁, hmini, hrest⟩ := except_bind_ok h
      obtain ⟨htotal, hremaining⟩ := decodeMiniblock_total hmini
      obtain ⟨htotal', hle, -⟩ := ih hrest
      exact ⟨htotal'.trans htotal, by omega, fun _ _ => by omega⟩

theorem decodeBlock_total (hnum : 0 < num) (hsize : 0 < size) (h : decodeBlock data num size s = .ok s') :
    s'.total = s.total ∧ (s.remaining ≠ 0 → s'.remaining < s.remaining) := by
  unfold decodeBlock at h
  split at h
  · cases h
  next out hread =>
    split_ifs at h with hroom
    obtain ⟨htotal, -, hless⟩ := decodeMiniblocks_total hsize h
    refine ⟨htotal, hless ?_⟩
    rw [← length_pos_iff, length_take, length_drop]
    omega

theorem decodeBlocks_total (hnum : 0 < num) (hsize : 0 < size) {fuel : Nat} (hfuel : s.remaining ≤ fuel)
    (h : decodeBlocks data num size fuel s = .ok s') : s'.result.length = s.total := by
  induction fuel generalizing s with
  | zero =>
    cases h
    rw [Walk.total, Nat.le_zero.mp hfuel, add_zero]
  | succ fuel ih =>
    rw [decodeBlocks] at h
    split_ifs at h with hzero
    · cases h
      rw [Walk.total, hzero, add_zero]
    · obtain ⟨s₁, hblock, hrest⟩ := except_bind_ok h
      obtain ⟨htotal, hless⟩ := decodeBlock_total hnum hsize hblock
      rw [← htotal]
      exact ih (by omega) hrest

end Count

theorem decodeDeltaBinaryPacked_length {data : List UInt8} {n : Int} {values : List (BitVec 64)}
    (hlow : -2 ^ 63 ≤ n) (hhigh : n < 2 ^ 63) (h : decodeDeltaBinaryPacked data n = .ok values) :
        (values.length : Int) = n := by
  unfold decodeDeltaBinaryPacked at h
  split_ifs at h with hzero
  · cases h
    exact hzero.symm
  · split at h
    · cases h
    next header hheader =>
      dsimp only at h
      split_ifs at h with hfew hnone hlimit
      obtain ⟨s, hblocks, rfl⟩ := except_map_ok h
      have hsize : 0 < miniblockSizeOf header.blockSize header.numMiniblocks := by
        unfold miniblockSizeOf
        split_ifs with hdiv
        · exact one_pos
        · exact pos_of_ne_zero hdiv
      have htotal := decodeBlocks_total (pos_of_ne_zero hnone) hsize (by exact le_rfl) hblocks
      rw [maxPageValues] at hlimit
      rw [length_take, htotal, Walk.total, length_singleton]
      dsimp only
      omega

end Wadjet.Storage.Parquet
