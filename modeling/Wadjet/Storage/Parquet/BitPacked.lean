import Wadjet.Data.BitPack
import Wadjet.Storage.Parquet.RleDecode

namespace Wadjet.Storage.Parquet

open Wadjet.Data List

theorem toNat_load (data : List UInt8) (off : Nat) {n : Nat} (hn : n ≤ 4) :
    (load data off n).toNat = ofLittleEndian data / 256 ^ off % 256 ^ n := by
  have hfits : 256 ^ n ≤ 2 ^ 32 := Nat.pow_le_pow_right (by decide : 0 < 256) hn
  rw [load, BitVec.toNat_ofNat, ofLittleEndian_take, ofLittleEndian_drop]
  exact Nat.mod_eq_of_lt (Nat.lt_of_lt_of_le (Nat.mod_lt _ (Nat.pow_pos (by decide))) hfits)

theorem toNat_bitPackedValue (data : List UInt8) {w : Nat} (hw : 0 < w) (i : Nat) :
    (bitPackedValue data w i).toNat = ofLittleEndian data / 2 ^ (i * w) % 2 ^ min w (32 - i * w % 8) := by
  have hpos : i * w = 8 * (i * w / 8) + i * w % 8 := (Nat.div_add_mod _ _).symm
  have hload : (load data (i * w / 8) 4 >>> (i * w % 8)).toNat =
      ofLittleEndian data / 2 ^ (i * w) % 2 ^ (32 - i * w % 8) := by
    have hsplit : 256 ^ 4 = 2 ^ (i * w % 8) * 2 ^ (32 - i * w % 8) := by
      rw [← pow_add, Nat.add_sub_cancel' (by omega)]
      rfl
    rw [BitVec.toNat_ushiftRight, toNat_load _ _ (Nat.le_refl 4), Nat.shiftRight_eq_div_pow, hsplit,
      Nat.mod_mul_right_div_self, Nat.div_div_eq_div_mul]
    congr 2
    conv_rhs => rw [hpos, pow_add, pow_mul]
    rfl
  unfold bitPackedValue
  rw [if_neg (Nat.ne_of_gt hw), BitVec.toNat_and, hload]
  by_cases h32 : w < 32
  · have hmask : ((1#32 <<< w) - 1#32).toNat = 2 ^ w - 1 := by
      have hlt : 2 ^ w < 2 ^ 32 := Nat.pow_lt_pow_right (by decide) h32
      have hone : (1#32 <<< w).toNat = 2 ^ w := by
        rw [BitVec.toNat_shiftLeft, Nat.shiftLeft_eq, show (1#32).toNat = 1 from rfl, Nat.one_mul,
          Nat.mod_eq_of_lt hlt]
      have hpow := Nat.two_pow_pos w
      rw [BitVec.toNat_sub, show (1#32).toNat = 1 from rfl]
      omega
    rw [hmask, Nat.and_two_pow_sub_one_eq_mod]
    rcases Nat.le_total w (32 - i * w % 8) with hle | hle
    · rw [Nat.min_eq_left hle, Nat.mod_mod_of_dvd _ (pow_dvd_pow 2 hle)]
    · rw [Nat.min_eq_right hle]
      refine Nat.mod_eq_of_lt (Nat.lt_of_lt_of_le (Nat.mod_lt _ (Nat.two_pow_pos _)) ?_)
      exact Nat.pow_le_pow_right (by decide) hle
  · have hmask : ((1#32 <<< w) - 1#32).toNat = 2 ^ 32 - 1 := by
      rw [BitVec.shiftLeft_eq_zero (by omega)]
      rfl
    rw [hmask, Nat.and_two_pow_sub_one_eq_mod, Nat.min_eq_right (by omega)]
    refine Nat.mod_eq_of_lt (Nat.lt_of_lt_of_le (Nat.mod_lt _ (Nat.two_pow_pos _)) ?_)
    exact Nat.pow_le_pow_right (by decide) (by omega)

theorem toNat_bitPackedValue_packBits {w : Nat} (hw : 0 < w) {vs : List Nat} (hvs : ∀ v ∈ vs, v < 2 ^ w)
    (i : Nat) : (bitPackedValue (packBits w vs) w i).toNat = vs.getD i 0 % 2 ^ (32 - i * w % 8) := by
  rw [toNat_bitPackedValue _ hw, ofLittleEndian_packBits hvs, packed_div_mod hvs i (Nat.min_le_left _ _)]
  rcases Nat.le_total w (32 - i * w % 8) with hle | hle
  · have hv : vs.getD i 0 < 2 ^ w := by
      rw [getD_eq_getElem?_getD]
      cases hget : vs[i]? with
      | none => exact Nat.two_pow_pos w
      | some v => exact hvs v (mem_of_getElem? hget)
    rw [Nat.min_eq_left hle, Nat.mod_eq_of_lt hv]
    exact (Nat.mod_eq_of_lt (Nat.lt_of_lt_of_le hv (Nat.pow_le_pow_right (by decide) hle))).symm
  · rw [Nat.min_eq_right hle]

section Varint

theorem and_low (b : Nat) : b &&& 0x7F = b % 128 :=
  Nat.and_two_pow_sub_one_eq_mod b 7

set_option maxRecDepth 4000 in
theorem and_high {b : Nat} (h : b < 256) : b &&& 0x80 = 0 ↔ b < 128 := by
  have hall : ∀ b : Fin 256, b.val &&& 0x80 = 0 ↔ b.val < 128 := by decide
  exact hall ⟨b, h⟩

theorem readVarintFrom_uvarint {data rest : List UInt8} (v : Nat) {off shift result : Nat}
    (hdata : data.drop off = uvarint v ++ rest) (hresult : result < 2 ^ shift) (hv : v * 2 ^ shift < 2 ^ 64) :
    readVarintFrom data off shift result = .ok (2 ^ shift * v + result, off + (uvarint v).length) := by
  induction v using Nat.strong_induction_on generalizing off shift result with
  | _ v ih =>
    have hput : ∀ d, d ≤ v → result ||| (d <<< shift) % 2 ^ 64 = 2 ^ shift * d + result := by
      intro d hd
      have hfits : d * 2 ^ shift < 2 ^ 64 := Nat.lt_of_le_of_lt (Nat.mul_le_mul_right _ hd) hv
      rw [Nat.shiftLeft_eq, Nat.mod_eq_of_lt hfits, Nat.or_comm, Nat.mul_comm,
        ← Nat.two_pow_add_eq_or_of_lt hresult]
    rw [uvarint] at hdata ⊢
    by_cases hsmall : v < 128
    · rw [if_pos hsmall] at hdata ⊢
      have hget : data[off]? = some (UInt8.ofNat v) := by
        rw [← Nat.add_zero off, ← getElem?_drop, hdata]
        rfl
      have hbyte : (UInt8.ofNat v).toNat = v := by
        rw [UInt8.toNat_ofNat', Nat.mod_eq_of_lt (by omega)]
      rw [readVarintFrom, hget]
      dsimp only
      rw [hbyte, and_low, Nat.mod_eq_of_lt hsmall, hput v (Nat.le_refl v),
        if_pos ((and_high (by omega)).mpr hsmall)]
      rfl
    · rw [if_neg hsmall] at hdata ⊢
      have hget : data[off]? = some (UInt8.ofNat (v % 128 + 128)) := by
        rw [← Nat.add_zero off, ← getElem?_drop, hdata]
        rfl
      have hbyte : (UInt8.ofNat (v % 128 + 128)).toNat = v % 128 + 128 := by
        rw [UInt8.toNat_ofNat', Nat.mod_eq_of_lt (by omega)]
      have hnext : data.drop (off + 1) = uvarint (v / 128) ++ rest := by
        rw [← drop_drop, hdata]
        rfl
      have hshift : 2 ^ (shift + 7) = 2 ^ shift * 128 := pow_add 2 shift 7
      have hdiv := Nat.mod_add_div v 128
      have hlow : 2 ^ shift * (v % 128) + result < 2 ^ (shift + 7) := by
        have : 2 ^ shift * (v % 128) + 2 ^ shift ≤ 2 ^ shift * 128 := by
          rw [← Nat.mul_succ]
          exact Nat.mul_le_mul_left _ (by omega)
        omega
      have hhigh : v / 128 * 2 ^ (shift + 7) < 2 ^ 64 := by
        refine Nat.lt_of_le_of_lt ?_ hv
        rw [hshift, Nat.mul_comm (2 ^ shift), ← Nat.mul_assoc]
        exact Nat.mul_le_mul_right _ (Nat.div_mul_le_self v 128)
      have hwide : ¬ 64 ≤ shift + 7 := by
        intro hge
        have hone : 1 ≤ v / 128 := by omega
        have := Nat.mul_le_mul hone (Nat.pow_le_pow_right (by decide : 0 < 2) hge)
        omega
      rw [readVarintFrom, hget]
      dsimp only
      rw [hbyte, and_low, Nat.add_mod_right, Nat.mod_mod, hput _ (Nat.mod_le v 128),
        if_neg (mt (and_high (by omega)).mp (by omega)), if_neg hwide,
        ih (v / 128) (by omega) hnext hlow hhigh, hshift, length_cons]
      congr 2
      · calc
          2 ^ shift * 128 * (v / 128) + (2 ^ shift * (v % 128) + result) =
              2 ^ shift * (v % 128 + 128 * (v / 128)) + result := by ring
          _ = 2 ^ shift * v + result := by rw [hdiv]
      · omega

theorem readVarint_uvarint {data rest : List UInt8} {v off : Nat} (hdata : data.drop off = uvarint v ++ rest)
    (hv : v < 2 ^ 64) : readVarint data off = .ok (v, off + (uvarint v).length) := by
  have hread := readVarintFrom_uvarint v hdata (Nat.one_pos : 0 < 2 ^ 0) (by rwa [pow_zero, Nat.mul_one])
  rwa [pow_zero, Nat.one_mul] at hread

end Varint

section Range

variable {w : Nat} {vs : List Nat}

theorem bitPackedValue_eq_iff (hw : 0 < w) (hw32 : w ≤ 32) (hvs : ∀ v ∈ vs, v < 2 ^ w) (i : Nat) :
    bitPackedValue (packBits w vs) w i = BitVec.ofNat 32 (vs.getD i 0) ↔
      vs.getD i 0 < 2 ^ (32 - i * w % 8) := by
  have hv : vs.getD i 0 < 2 ^ 32 := by
    rw [getD_eq_getElem?_getD]
    cases hget : vs[i]? with
    | none => exact Nat.two_pow_pos 32
    | some v =>
      exact Nat.lt_of_lt_of_le (hvs v (mem_of_getElem? hget)) (Nat.pow_le_pow_right (by decide) hw32)
  rw [← BitVec.toNat_inj, toNat_bitPackedValue_packBits hw hvs, BitVec.toNat_ofNat, Nat.mod_eq_of_lt hv]
  constructor
  · intro h
    rw [← h]
    exact Nat.mod_lt _ (Nat.two_pow_pos _)
  · exact Nat.mod_eq_of_lt

-- The values from start on come back where the four bytes of each hold all of it.
theorem decodeBitPackedRange_eq_iff (hw : 0 < w) (hw32 : w ≤ 32) (hvs : ∀ v ∈ vs, v < 2 ^ w) {start n : Nat}
    (hrange : start + n ≤ vs.length) :
    decodeBitPackedRange (packBits w vs) w start n = ((vs.drop start).take n).map (BitVec.ofNat 32) ↔
      ∀ i, start ≤ i → i < start + n → vs.getD i 0 < 2 ^ (32 - i * w % 8) := by
  have hvalues : ((vs.drop start).take n).map (BitVec.ofNat 32) =
      (range n).map fun i => BitVec.ofNat 32 (vs.getD (start + i) 0) := by
    refine ext_getElem? fun i => ?_
    rw [getElem?_map, getElem?_map, getElem?_take, getElem?_drop]
    by_cases hi : i < n
    · rw [if_pos hi, getElem?_range hi]
      simp [getElem?_eq_getElem (by omega : start + i < vs.length)]
    · rw [if_neg hi, getElem?_eq_none (by rw [length_range]; omega)]
      rfl
  rw [hvalues, decodeBitPackedRange, map_inj_left]
  constructor
  · intro h i hlow hhigh
    have hi := h (i - start) (mem_range.mpr (by omega))
    rw [Nat.add_sub_cancel' hlow] at hi
    exact (bitPackedValue_eq_iff hw hw32 hvs i).mp hi
  · intro h i hi
    exact (bitPackedValue_eq_iff hw hw32 hvs _).mpr
      (h _ (Nat.le_add_right _ _) (Nat.add_lt_add_left (mem_range.mp hi) _))

end Range

section Stream

variable {w groups : Nat} {vs : List Nat}

def packedStream (w groups : Nat) (vs : List Nat) : List UInt8 :=
  uvarint (2 * groups + 1) ++ packBits w vs

theorem groupAt_packedStream (hgroups : 0 < groups) (hlength : vs.length = 8 * groups)
    (hpage : vs.length ≤ 2 ^ 24) (hfits : (packedStream w groups vs).length < 2 ^ 48) (strict : Bool) :
    groupAt (packedStream w groups vs) w strict vs.length 0 0 =
      .emit (.packed (packBits w vs) vs.length) (packedStream w groups vs).length := by
  have hread : readVarint (packedStream w groups vs) 0 = .ok (2 * groups + 1, 0 + _) :=
    readVarint_uvarint drop_zero (by omega)
  have hbytes : (packBits w vs).length = groups * w := by
    rw [length_packBits, hlength, Nat.mul_assoc]
    omega
  have htotal : (packedStream w groups vs).length = (uvarint (2 * groups + 1)).length + groups * w := by
    rw [packedStream, length_append, hbytes]
  have hwrap : (wrap64 ((groups : Int) * w)) = (groups * w : Nat) := by
    rw [← Int.natCast_mul, wrap64_eq (by omega) (by omega)]
  have hdrop : ((packedStream w groups vs).drop (uvarint (2 * groups + 1)).length).take (groups * w) =
      packBits w vs := by
    rw [packedStream, drop_left, ← hbytes, take_length]
  unfold groupAt
  rw [hread]
  dsimp only
  rw [if_neg (by omega), if_neg (by omega), show (2 * groups + 1) / 2 = groups by omega, Nat.zero_add]
  unfold packedAt
  dsimp only
  rw [hwrap, Int.toNat_natCast, if_neg (by omega), if_neg (by omega), if_neg (by omega), if_neg (by omega),
    hdrop, ← htotal, Nat.sub_zero, Nat.min_eq_right (by omega)]

theorem decodeAllBatch_packedStream (hlength : vs.length = 8 * groups)
    (hpage : vs.length ≤ 2 ^ 24) (hfits : (packedStream w groups vs).length < 2 ^ 48) (strict : Bool)
    {dst : List (BitVec 32)} (hdst : dst.length = vs.length) :
    decodeAllBatch ⟨packedStream w groups vs, hfits⟩ w strict dst =
      some ⟨vs.length, none, decodeBitPackedRange (packBits w vs) w 0 vs.length⟩ := by
  have hexpand : expand (packedStream w groups vs) w strict dst.length 0 0 =
      some (decodeBitPackedRange (packBits w vs) w 0 vs.length, none) := by
    rw [expand_eq, hdst]
    by_cases hgroups : 0 < groups
    · have hpos : 0 < (packedStream w groups vs).length := by
        have := groupAt_progress (groupAt_packedStream hgroups hlength hpage hfits strict)
        omega
      rw [if_pos ⟨hpos, by omega⟩, groupAt_packedStream hgroups hlength hpage hfits]
      dsimp only
      rw [expand_eq, if_neg (fun h => Nat.lt_irrefl _ h.1), Option.map_some, append_nil]
      rfl
    · have hnone : vs.length = 0 := by omega
      rw [hnone, if_neg (fun h => Nat.lt_irrefl _ h.2)]
      rfl
  have hloop := @decodeLoop_spec _ w strict dst 0 0 hfits (by omega) (Nat.zero_le _)
  rw [hexpand] at hloop
  have hvalues := length_decodeBitPackedRange (packBits w vs) w 0 vs.length
  rw [decodeAllBatch, show ((0 : Int)) = ((0 : Nat) : Int) from rfl, hloop.2, hvalues, Nat.zero_add]
  unfold stored
  rw [take_zero, nil_append, Nat.zero_add, hvalues, ← hdst, drop_length, append_nil]

end Stream

-- Every range of a packed list, and every packed run of a stream, comes back exactly where
-- the bits from a value's place in its first byte on fit four bytes.
theorem bitPacked_exact (w : Nat) (hw : 0 < w) (hw32 : w ≤ 32) (vs : List Nat) (hvs : ∀ v ∈ vs, v < 2 ^ w) :
    (∀ start n, start + n ≤ vs.length →
      (decodeBitPackedRange (packBits w vs) w start n = ((vs.drop start).take n).map (BitVec.ofNat 32) ↔
        ∀ i, start ≤ i → i < start + n → vs.getD i 0 < 2 ^ (32 - i * w % 8))) ∧
    ∀ groups strict (dst : List (BitVec 32)), vs.length = 8 * groups → vs.length ≤ maxPageValues →
      dst.length = vs.length → ∀ hfits : (packedStream w groups vs).length < 2 ^ 48,
        (decodeAllBatch ⟨packedStream w groups vs, hfits⟩ w strict dst =
            some ⟨vs.length, none, vs.map (BitVec.ofNat 32)⟩ ↔
          ∀ i < vs.length, vs.getD i 0 < 2 ^ (32 - i * w % 8)) := by
  refine ⟨fun start n => decodeBitPackedRange_eq_iff hw hw32 hvs, ?_⟩
  intro groups strict dst hlength hpage hdst hfits
  have hrange := decodeBitPackedRange_eq_iff hw hw32 hvs (Nat.le_of_eq (Nat.zero_add vs.length))
  rw [drop_zero, take_length, Nat.zero_add] at hrange
  rw [decodeAllBatch_packedStream hlength hpage hfits strict hdst, Option.some_inj, Decoded.mk.injEq]
  constructor
  · rintro ⟨-, -, hvalues⟩ i hi
    exact hrange.mp hvalues i (Nat.zero_le i) hi
  · intro h
    exact ⟨rfl, rfl, hrange.mpr fun i _ hi => h i hi⟩

theorem bitPacked_exact_five :
    decodeBitPackedRange (packBits 5 [3, 31, 0, 17]) 5 1 3 = [31#32, 0#32, 17#32] := by
  have hfit : ∀ i < 4, [3, 31, 0, 17].getD i 0 < 2 ^ (32 - i * 5 % 8) := by decide
  exact ((bitPacked_exact 5 (by decide) (by decide) [3, 31, 0, 17] (by decide)).1 1 3 (by decide)).mpr
    fun i _ hi => hfit i hi

-- The third value starts at bit six of its first byte, so its top bit is in a fifth.
theorem bitPacked_loses_top_bit :
    (∀ v ∈ [0, 0, 2 ^ 26], v < 2 ^ 27) ∧
      decodeBitPackedRange (packBits 27 [0, 0, 2 ^ 26]) 27 0 3 ≠ [0, 0, 2 ^ 26].map (BitVec.ofNat 32) := by
  decide

end Wadjet.Storage.Parquet
