import Wadjet.Storage.Parquet.RleExact

namespace Wadjet.Storage.Parquet

open Wadjet.Data List Option

variable {data : List UInt8} {bitWidth count : Nat} {strict : Bool}

def stored (dst : List (BitVec 32)) (pos : Nat) (values : List (BitVec 32)) : List (BitVec 32) :=
  dst.take pos ++ values ++ dst.drop (pos + values.length)

variable {dst : List (BitVec 32)}

theorem fill_eq {pos n : Nat} (val : BitVec 32)
    (h : pos + n ≤ dst.length) :
    fill dst pos (pos + n : Nat) val = some (stored dst pos (replicate n val)) := by
  unfold fill stored
  rw [length_replicate]
  by_cases hn : n = 0
  · subst hn
    simp
  · rw [if_neg (by omega), if_pos (by omega)]
    congr 3
    · congr 1
      omega

variable {dst values : List (BitVec 32)}

theorem copyInto_eq {pos : Nat} (h : pos + values.length ≤ dst.length) :
    copyInto dst pos (pos + values.length : Nat) values = some (stored dst pos values) := by
  unfold copyInto stored
  rw [if_pos (by omega)]
  simp

theorem slice_eq {low high : Nat} (hlow : low ≤ high) (hhigh : high ≤ data.length) :
    slice data low high = some ((data.drop low).take (high - low)) := by
  unfold slice
  rw [if_pos (by omega)]
  congr 2
  omega

-- How one round of the decoder answers to a group. A group that wraps panics or
-- leaves a negative position.
def Refines (bitWidth pos : Nat) (dst : List (BitVec 32)) : Group → Option DecodeStep → Prop
  | .fail err, step => step = some (.stop ⟨pos, some err, dst⟩)
  | .wraps, step => step = none ∨
      ∃ next pos', step = some (.more next pos' dst) ∧ -2 ^ 63 ≤ pos' ∧ pos' < 0
  | .emit burst next, step =>
    step = some (.more next ((pos + (burst.values bitWidth).length : Nat) : Int)
      (stored dst pos (burst.values bitWidth)))

variable {decoded : List (BitVec 32)}

theorem storeDecoded_eq {pos : Nat}
    (hlen : dst.length ≤ 2 ^ 24) (hpos : pos + decoded.length ≤ dst.length) :
    storeDecoded dst pos decoded =
      some (((pos + decoded.length : Nat) : Int), stored dst pos decoded) := by
  have hwrap : wrap64 ((pos : Int) + decoded.length) = (pos + decoded.length : Nat) := by
    rw [wrap64_eq (by omega) (by omega), Int.natCast_add]
  have hroom : ¬ ((dst.length : Int) < (pos + decoded.length : Nat)) := by omega
  unfold storeDecoded
  dsimp only
  rw [hwrap, if_neg hroom, hwrap, copyInto_eq hpos, map_some]

variable {pos : Int}

theorem storeDecoded_negative (hpos : pos < 0) : storeDecoded dst pos decoded = none := by
  have hcopy : ∀ stop, copyInto dst pos stop decoded = none := fun stop => if_neg (by omega)
  unfold storeDecoded
  dsimp only
  rw [hcopy, map_none]

theorem decodePacked_tail {bytes : List UInt8} {pos n next : Nat}
    (hlen : dst.length ≤ 2 ^ 24) (hpos : pos + n ≤ dst.length) :
    ((decodeBitPacked bytes bitWidth n).bind fun decoded =>
        (storeDecoded dst pos decoded).map fun out => DecodeStep.more next out.1 out.2) =
      some (.more next ((pos + ((Burst.packed bytes n).values bitWidth).length : Nat) : Int)
        (stored dst pos ((Burst.packed bytes n).values bitWidth))) := by
  have hlength := length_decodeBitPackedRange bytes bitWidth 0 n
  have hdecoded : decodeBitPacked bytes bitWidth n =
      some (decodeBitPackedRange bytes bitWidth 0 n) := by
    rw [decodeBitPacked, if_neg (by omega), Int.toNat_natCast]
  rw [hdecoded, bind_some, storeDecoded_eq hlen (by omega)]
  rfl

variable {off : Nat}

theorem clipped_slice {off : Nat} {byteCount : Int} (hdata : data.length < 2 ^ 48)
    (hoff : off ≤ data.length) (hneg : ¬ byteCount < 0) (hwrap : ¬ 2 ^ 63 ≤ off + byteCount.toNat) :
    if data.length < off + byteCount.toNat then
      (data.length : Int) < wrap64 (off + byteCount) ∧
        slice data off (wrap64 (off + ((data.length : Int) - off))) = some (data.drop off) ∧
          off + ((data.length : Int) - off).toNat = data.length
    else
      ¬ (data.length : Int) < wrap64 (off + byteCount) ∧
        slice data off (wrap64 (off + byteCount)) = some ((data.drop off).take byteCount.toNat) := by
  have hsum : wrap64 (off + byteCount) = off + byteCount := wrap64_eq (by omega) (by omega)
  split_ifs with hpast
  · have hend : wrap64 ((off : Int) + ((data.length : Int) - off)) = data.length := by
      rw [wrap64_eq (by omega) (by omega)]
      omega
    rw [hsum, hend, slice_eq hoff le_rfl, take_of_length_le (by rw [length_drop])]
    exact ⟨by omega, rfl, by omega⟩
  · have hstop : (off : Int) + byteCount = (off + byteCount.toNat : Nat) := by omega
    rw [hsum, hstop, slice_eq (Nat.le_add_right _ _) (by omega), Nat.add_sub_cancel_left]
    exact ⟨by omega, rfl⟩

theorem decodePacked_refines {groupCount off pos : Nat}
    (hdata : data.length < 2 ^ 48) (hlen : dst.length ≤ 2 ^ 24) (hgroup : groupCount < 2 ^ 63)
    (hpos : pos ≤ dst.length) (hoff : off ≤ data.length) :
    Refines bitWidth pos dst (packedAt data bitWidth strict dst.length groupCount off pos)
      (decodePacked data bitWidth strict groupCount off pos dst) := by
  have hbytes := wrap64_bounds ((groupCount : Int) * bitWidth)
  simp only [packedAt, decodePacked, groupCount_guard hgroup]
  by_cases hguard : 2 ^ 63 ≤ groupCount * 8
  · rw [if_pos hguard, if_pos hguard]
    rfl
  have hvalues : (if wrap64 ((dst.length : Int) - pos) < wrap64 ((groupCount : Int) * 8) then
      wrap64 ((dst.length : Int) - pos) else wrap64 ((groupCount : Int) * 8)) =
      (min (groupCount * 8) (dst.length - pos) : Nat) := by
    rw [wrap64_eq (by omega) (by omega), wrap64_eq (by omega) (by omega)]
    split_ifs <;> omega
  rw [if_neg hguard, if_neg hguard, hvalues]
  generalize wrap64 ((groupCount : Int) * bitWidth) = byteCount at *
  by_cases hneg : byteCount < 0
  · rw [if_pos hneg, if_pos hneg]
    rfl
  rw [if_neg hneg, if_neg hneg]
  by_cases hwrap : 2 ^ 63 ≤ off + byteCount.toNat
  · have hsum : wrap64 (off + byteCount) = off + byteCount - 2 ^ 64 :=
      wrap64_of_ge (by omega) (by omega)
    have hslice : slice data off (off + byteCount - 2 ^ 64) = none := if_neg (by omega)
    have hpast : ¬ ((data.length : Int) < off + byteCount - 2 ^ 64) := by omega
    rw [if_pos hwrap]
    rw [hsum, if_neg (fun h => hpast h.1), if_neg hpast, hsum, hslice]
    exact .inl rfl
  have hclip := clipped_slice hdata hoff hneg hwrap
  rw [if_neg hwrap]
  by_cases hpast : data.length < off + byteCount.toNat
  · obtain ⟨hpast', hslice, hnext⟩ := (if_pos hpast).mp hclip
    rw [if_pos hpast, if_pos hpast']
    cases strict with
    | true =>
      rw [if_pos rfl, if_pos ⟨hpast', rfl⟩]
      rfl
    | false =>
      rw [if_neg Bool.false_ne_true, if_neg (fun h => Bool.false_ne_true h.2), hslice, bind_some,
        hnext, decodePacked_tail hlen (by omega)]
      rfl
  · obtain ⟨hpast', hslice⟩ := (if_neg hpast).mp hclip
    rw [if_neg hpast, if_neg hpast', if_neg (fun h => hpast' h.1), hslice, bind_some,
      decodePacked_tail hlen (by omega)]
    rfl

theorem decodeGroup_refines {pos : Nat}
    (hdata : data.length < 2 ^ 48) (hlen : dst.length ≤ 2 ^ 24) (hpos : pos ≤ dst.length) :
    Refines bitWidth pos dst (groupAt data bitWidth strict dst.length off pos)
      (decodeGroup data bitWidth strict off pos dst) := by
  unfold groupAt decodeGroup
  cases hvarint : readVarint data off with
  | error e => rfl
  | ok header =>
    obtain ⟨header, off1⟩ := header
    have hheader := readVarint_lt hvarint
    dsimp only
    by_cases heven : header % 2 = 0
    · rw [if_pos heven, if_pos heven]
      cases hvalue : readRLEValue data bitWidth off1 with
      | error e => rfl
      | ok val =>
        obtain ⟨val, off2⟩ := val
        dsimp only
        by_cases hwrap : 2 ^ 63 ≤ pos + header / 2
        · have hsum : wrap64 ((pos : Int) + (header / 2 : Nat)) =
              pos + (header / 2 : Nat) - 2 ^ 64 := wrap64_of_ge (by omega) (by omega)
          have hfill : fill dst pos ((pos : Int) + (header / 2 : Nat) - 2 ^ 64) val =
              some dst := if_pos (by omega)
          rw [if_pos hwrap, hsum, if_neg (by omega), hfill]
          exact .inr ⟨_, _, rfl, by omega, by omega⟩
        · have hstop : (if (dst.length : Int) < wrap64 ((pos : Int) + (header / 2 : Nat)) then
              (dst.length : Int) else wrap64 ((pos : Int) + (header / 2 : Nat))) =
              ((pos + min (header / 2) (dst.length - pos) : Nat) : Int) := by
            rw [wrap64_eq (by omega) (by omega)]
            split_ifs <;> omega
          rw [if_neg hwrap, hstop, fill_eq val (by omega), map_some]
          simp [Refines, Burst.values]
    · rw [if_neg heven, if_neg heven]
      by_cases hzero : header / 2 = 0
      · rw [if_pos hzero, if_pos hzero]
        simp [Refines, Burst.values, stored]
      · rw [if_neg hzero, if_neg hzero]
        exact decodePacked_refines hdata hlen (by omega) hpos (readVarint_progress hvarint).2

variable {step : DecodeStep}

theorem decodePacked_negative {groupCount : Int} (hpos : pos < 0)
    (h : decodePacked data bitWidth strict groupCount off pos dst = some step) :
    ∃ out, step = .stop out ∧ out.n = pos := by
  unfold decodePacked at h
  simp only [storeDecoded_negative hpos, map_none, bind_fun_none] at h
  split_ifs at h <;> cases h <;> exact ⟨_, rfl, rfl⟩

theorem decodeGroup_negative (hlow : -2 ^ 63 ≤ pos) (hpos : pos < 0)
    (h : decodeGroup data bitWidth strict off pos dst = some step) :
    (∃ out, step = .stop out ∧ out.n = pos) ∨ ∃ next, step = .more next pos dst := by
  unfold decodeGroup at h
  split at h
  · cases h
    exact .inl ⟨_, rfl, rfl⟩
  next header off hvarint =>
    have hheader := readVarint_lt hvarint
    by_cases heven : header % 2 = 0
    · rw [if_pos heven] at h
      split at h
      · cases h
        exact .inl ⟨_, rfl, rfl⟩
      -- a fill at a negative place panics unless it is empty
      · obtain ⟨filled, hfill, rfl⟩ := map_eq_some_iff.mp h
        unfold fill at hfill
        rw [wrap64_eq (by omega) (by omega)] at hfill ⊢
        split_ifs at hfill ⊢ <;> first | omega | cases hfill
        exact .inr ⟨_, by congr; omega⟩
    · rw [if_neg heven] at h
      split_ifs at h
      · cases h
        exact .inr ⟨_, rfl⟩
      · exact .inl (decodePacked_negative hpos h)

variable {out : Decoded}

theorem decodeLoop_negative (hlow : -2 ^ 63 ≤ pos) (hpos : pos < 0)
    (h : decodeLoop data bitWidth strict off pos dst = some out) : out.n < 0 := by
  induction hleft : data.length - off using Nat.strong_induction_on generalizing off with
  | _ left ih =>
    rw [decodeLoop_eq] at h
    split_ifs at h with hguard
    · split at h
      · cases h
      · rename_i out' hstep
        obtain ⟨out'', heq, hn⟩ | ⟨next, heq⟩ := decodeGroup_negative hlow hpos hstep
        · cases h
          cases heq
          omega
        · cases heq
      · rename_i next pos' dst' hstep
        have hprogress := decodeGroup_progress hstep
        obtain ⟨out'', heq, hn⟩ | ⟨next', heq⟩ := decodeGroup_negative hlow hpos hstep
        · cases heq
        · cases heq
          exact ih (data.length - next) (by omega) h rfl
    · cases h
      exact hpos

theorem length_stored {pos : Nat}
    (h : pos + values.length ≤ dst.length) : (stored dst pos values).length = dst.length := by
  simp only [stored, length_append, length_take, length_drop]
  omega

theorem stored_stored {first second : List (BitVec 32)} {pos : Nat}
    (h : pos + first.length ≤ dst.length) :
    stored (stored dst pos first) (pos + first.length) second = stored dst pos (first ++ second) := by
  have hprefix : (dst.take pos ++ first).length = pos + first.length := by
    simp only [length_append, length_take]
    omega
  have hrest : (stored dst pos first).drop (pos + first.length + second.length) =
      dst.drop (pos + (first ++ second).length) := by
    unfold stored
    rw [drop_append, drop_eq_nil_of_le (by omega), nil_append, drop_drop,
      hprefix, length_append]
    congr 1
    omega
  have hfirst : (stored dst pos first).take (pos + first.length) = dst.take pos ++ first := by
    rw [← hprefix]
    exact take_left
  rw [stored, hrest, hfirst, stored, append_assoc (dst.take pos)]

theorem take_stored : (stored dst 0 values).take values.length = values := by
  simp [stored]

-- Where no group wraps the decoder stores the values of the stream; where one wraps it panics or
-- reports a negative length.
theorem decodeLoop_spec {off pos : Nat} (hdata : data.length < 2 ^ 48) (hlen : dst.length ≤ 2 ^ 24)
    (hpos : pos ≤ dst.length) :
    match expand data bitWidth strict dst.length off pos with
    | some (values, err) => pos + values.length ≤ dst.length ∧
        decodeLoop data bitWidth strict off pos dst =
          some ⟨(pos + values.length : Nat), err, stored dst pos values⟩
    | none => ∀ out, decodeLoop data bitWidth strict off pos dst = some out → out.n < 0 := by
  induction hleft : data.length - off using Nat.strong_induction_on generalizing off pos dst with
  | _ left ih =>
    have hrefines := @decodeGroup_refines data bitWidth strict dst off pos hdata hlen hpos
    rw [expand_eq, decodeLoop_eq]
    by_cases hguard : off < data.length ∧ pos < dst.length
    · rw [if_pos hguard, if_pos (by omega)]
      cases hgroup : groupAt data bitWidth strict dst.length off pos with
      | fail err' =>
        rw [hgroup] at hrefines
        rw [show decodeGroup data bitWidth strict off pos dst = _ from hrefines]
        simp [stored, hpos]
      | wraps =>
        rw [hgroup] at hrefines
        obtain hpanic | ⟨next, pos', hmore, hlow, hneg⟩ := hrefines
        · rw [hpanic]
          nofun
        · rw [hmore]
          exact fun out h => decodeLoop_negative hlow hneg h
      | emit burst next =>
        obtain ⟨hprogress, -, hroom⟩ := groupAt_progress hgroup
        have hsize := burst.length_values bitWidth
        have hstored := @length_stored dst (burst.values bitWidth) pos (by omega)
        rw [hgroup] at hrefines
        rw [show decodeGroup data bitWidth strict off pos dst = _ from hrefines]
        have hrest :=
            @ih (data.length - next) (by omega) _ next (pos + burst.size) (hstored.le.trans hlen) (by omega) rfl
        rw [hstored] at hrest
        rw [hsize]
        cases hexpand : expand data bitWidth strict dst.length next (pos + burst.size) with
        | none => simpa [hexpand] using hrest
        | some rest =>
          rw [hexpand] at hrest
          obtain ⟨hfits, hloop⟩ := hrest
          simp only [hexpand, map_some]
          refine ⟨by rw [length_append]; omega, ?_⟩
          rw [hloop, ← hsize, stored_stored (by omega), length_append, Nat.add_assoc]
    · rw [if_neg hguard, if_neg (by omega)]
      simp [stored, hpos]

end Wadjet.Storage.Parquet
