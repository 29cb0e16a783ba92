import Wadjet.Storage.Parquet.Delta

namespace Wadjet.Storage.Parquet

inductive DeltaBytesError where
  | lengths (cause : DeltaError)
  | lengthDataEnd (stop len : Nat)
  | negative (length : Int) (index : Nat)
  | truncated (need off left : Nat)
  | prefixLengths (cause : DeltaError)
  | suffixStart (start len : Nat)
  | suffixes (cause : DeltaBytesError)
  -- A slice expression out of range panics.
  | sliceBounds
deriving DecidableEq

structure ByteArrays where
  data : List UInt8
  offsets : List Nat
deriving DecidableEq

def slicesOf (data : List UInt8) : List Nat → List (List UInt8)
  | a :: b :: offsets => (data.drop a).take (b - a) :: slicesOf data (b :: offsets)
  | _ => []

def ByteArrays.values (v : ByteArrays) : List (List UInt8) :=
  slicesOf v.data v.offsets

section DataEnd

variable (data : List UInt8)

-- The reader of the second walk: no error, bits past the word are dropped.
def skipVarintFrom (off shift result : Nat) : List UInt8 → Nat × Nat
  | [] => (result, off)
  | b :: rest =>
    let result := result ||| ((b.toNat &&& 0x7F) <<< shift) % 2 ^ 64
    if b.toNat &&& 0x80 = 0 then (result, off + 1) else skipVarintFrom (off + 1) (shift + 7) result rest

def skipVarint (off : Nat) : Nat × Nat :=
  skipVarintFrom off 0 0 (data.drop off)

def skipMiniblocks (miniblockSize : Nat) : List UInt8 → Nat → Nat → Nat × Nat
  | [], off, remaining => (off, remaining)
  | bw :: bitWidths, off, remaining =>
    if remaining = 0 then (off, remaining)
    else
      skipMiniblocks miniblockSize bitWidths
        (if 0 < bw.toNat then off + (miniblockSize * bw.toNat + 7) / 8 else off)
        (remaining - min miniblockSize remaining)

def skipBlocks (numMiniblocks miniblockSize : Nat) : Nat → Nat → Nat → Nat
  | 0, off, _ => off
  | fuel + 1, off, remaining =>
    if remaining = 0 ∨ data.length ≤ off then off
    else
      let off := (skipVarint data off).2
      let bitWidths := (data.drop off).take numMiniblocks
      let padded := bitWidths ++ List.replicate (numMiniblocks - bitWidths.length) 0
      let next := skipMiniblocks miniblockSize padded (off + numMiniblocks) remaining
      skipBlocks numMiniblocks miniblockSize fuel next.1 next.2

-- Called on a header that decodeDeltaBinaryPacked accepted.
def findDeltaDataEnd : Nat :=
  let blockSize := skipVarint data 0
  let numMiniblocks := skipVarint data blockSize.2
  let totalValues := skipVarint data numMiniblocks.2
  let off := (skipVarint data totalValues.2).2
  if numMiniblocks.1 = 0 ∨ totalValues.1 = 0 then off
  else
    skipBlocks data numMiniblocks.1 (miniblockSizeOf blockSize.1 numMiniblocks.1) (totalValues.1 - 1) off
      (totalValues.1 - 1)

end DataEnd

def sumLengths (i total : Nat) : List (BitVec 64) → Except DeltaBytesError (List Nat)
  | [] => .ok [total]
  | l :: lengths =>
    if l.toInt < 0 then .error (.negative l.toInt i)
    else (sumLengths (i + 1) ((total + l.toNat % 2 ^ 32) % 2 ^ 32) lengths).map (total :: ·)

def decodeDeltaLengthByteArray (data : List UInt8) (n : Int) : Except DeltaBytesError ByteArrays :=
  if n = 0 then .ok ⟨[], []⟩
  else
    match decodeDeltaBinaryPacked data n with
    | .error e => .error (.lengths e)
    | .ok lengths =>
      let lengthDataEnd := findDeltaDataEnd data
      if data.length < lengthDataEnd then .error (.lengthDataEnd lengthDataEnd data.length)
      else
        match sumLengths 0 0 lengths with
        | .error e => .error e
        | .ok offsets =>
          let totalLen := offsets.getLastD 0
          if data.length < lengthDataEnd + totalLen then
            .error (.truncated totalLen lengthDataEnd (data.length - lengthDataEnd))
          else .ok ⟨(data.drop lengthDataEnd).take totalLen, offsets⟩

-- A prefix that does not fit is left out.
def keptPrefix (prev : List UInt8) (prefixLen : Int) : List UInt8 :=
  if 0 < prefixLen ∧ prefixLen ≤ prev.length then prev.take prefixLen.toNat else []

def rebuild (suffixData : List UInt8) (packed prev : List UInt8) :
    List (BitVec 64) → List Nat → Except DeltaBytesError ByteArrays
  | p :: prefixes, o :: o' :: offsets =>
    if o ≤ o' ∧ o' ≤ suffixData.length then
      let suffix := (suffixData.drop o).take (o' - o)
      let start := packed.length % 2 ^ 32
      let packed := packed ++ (keptPrefix prev p.toInt ++ suffix)
      (rebuild suffixData packed (packed.drop start) prefixes (o' :: offsets)).map
        fun v => ⟨v.data, start :: v.offsets⟩
    else .error .sliceBounds
  | _, _ => .ok ⟨packed, [packed.length % 2 ^ 32]⟩

def decodeDeltaByteArray (data : List UInt8) (n : Int) : Except DeltaBytesError ByteArrays :=
  if n = 0 then .ok ⟨[], []⟩
  else
    match decodeDeltaBinaryPacked data n with
    | .error e => .error (.prefixLengths e)
    | .ok prefixes =>
      let n := min n prefixes.length
      if n = 0 then .ok ⟨[], []⟩
      else
        let suffixStart := findDeltaDataEnd data
        if data.length < suffixStart then .error (.suffixStart suffixStart data.length)
        else
          match decodeDeltaLengthByteArray (data.drop suffixStart) n with
          | .error e => .error (.suffixes e)
          | .ok suffixes => rebuild suffixes.data [] [] (prefixes.take n.toNat) suffixes.offsets

end Wadjet.Storage.Parquet
