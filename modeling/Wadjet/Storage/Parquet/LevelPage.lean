import Wadjet.Storage.Parquet.BitPacked
import Wadjet.Storage.Parquet.RleAgree

namespace Wadjet.Storage.Parquet

open Wadjet.Data List

-- The loop of bitsRequiredForMax in the writer and of bitsRequired in the reader.
def bitsRequired (v : Nat) : Nat :=
  if v = 0 then 0 else bitsRequired (v / 2) + 1

theorem bitsRequired_le_iff (v n : Nat) : bitsRequired v ≤ n ↔ v < 2 ^ n := by
  induction v using Nat.strong_induction_on generalizing n with
  | _ v ih =>
    rw [bitsRequired]
    split_ifs with hzero
    · simp [hzero]
    · cases n with
      | zero => omega
      | succ n =>
        rw [Nat.succ_le_succ_iff, ih (v / 2) (by omega), pow_succ]
        omega

def encodeRuns (valueBytes : Nat) : List (BitVec 32) → List UInt8
  | [] => []
  | val :: rest =>
    uvarint (2 * ((rest.takeWhile (· == val)).length + 1)) ++
      (littleEndian valueBytes val.toNat ++ encodeRuns valueBytes (rest.dropWhile (· == val)))
termination_by levels => levels.length
decreasing_by exact Nat.lt_succ_of_le (dropWhile_sublist _).length_le

-- A level that is not given is zero.
def encodeLevelsRLE (levels : List (BitVec 32)) (count bitWidth : Nat) : List UInt8 :=
  encodeRuns ((bitWidth + 7) / 8) ((range count).map (levels.getD · 0))

theorem length_uvarint_le (v : Nat) : (uvarint v).length ≤ v + 1 := by
  induction v using Nat.strong_induction_on with
  | _ v ih =>
    rw [uvarint]
    split_ifs with hsmall
    · exact Nat.le_add_left 1 v
    · have := ih (v / 128) (by omega)
      rw [length_cons]
      omega

theorem length_encodeRuns_le (valueBytes : Nat) (levels : List (BitVec 32)) :
    (encodeRuns valueBytes levels).length ≤ levels.length * (valueBytes + 3) := by
  induction levels using encodeRuns.induct with
  | case1 => simp [encodeRuns]
  | case2 val rest ih =>
    have hrest := congrArg length (takeWhile_append_dropWhile (p := (· == val)) (l := rest))
    have hcount := length_uvarint_le (2 * ((rest.takeWhile (· == val)).length + 1))
    rw [encodeRuns, length_cons, ← hrest]
    simp only [length_append, length_littleEndian]
    generalize (rest.takeWhile (· == val)).length = same at hcount ⊢
    have hvalue : valueBytes ≤ (same + 1) * valueBytes := Nat.le_mul_of_pos_left _ (Nat.succ_pos same)
    rw [Nat.add_right_comm, Nat.add_mul, Nat.mul_add (same + 1)]
    omega

variable {data rest : List UInt8} {w off n : Nat} {v : BitVec 32}

theorem readRLEValue_littleEndian (hv : v.toNat < 2 ^ w) (hoff : off ≤ data.length)
    (h : data.drop off = littleEndian ((w + 7) / 8) v.toNat ++ rest) :
    readRLEValue data w off = .ok (v, off + (w + 7) / 8) := by
  have hlength := congrArg length h
  rw [length_drop, length_append, length_littleEndian] at hlength
  have hbound : v.toNat < 256 ^ ((w + 7) / 8) := by
    refine hv.trans_le ?_
    rw [show 256 = 2 ^ 8 from rfl, ← pow_mul]
    exact Nat.pow_le_pow_right (by decide) (by omega)
  have hvalue : load data off ((w + 7) / 8) = v := by
    rw [load, h, take_left' (length_littleEndian _ _), ofLittleEndian_littleEndian,
      Nat.mod_eq_of_lt hbound, BitVec.ofNat_toNat, BitVec.setWidth_eq]
  rw [readRLEValue, if_neg (by omega), hvalue]

-- Each run of the writer is one group of the reader.
theorem expand_encodeRuns (strict : Bool) {count pos : Nat} (hcount : count ≤ 2 ^ 24)
    {levels : List (BitVec 32)} (hlevels : ∀ v ∈ levels, v.toNat < 2 ^ w)
    (hpos : pos + levels.length = count) (h : data.drop off = encodeRuns ((w + 7) / 8) levels) :
    expand data w strict count off pos = some (levels, none) := by
  induction levels using encodeRuns.induct generalizing off pos with
  | case1 =>
    have hend : data.length ≤ off := drop_eq_nil_iff.mp (by rw [h, encodeRuns])
    rw [expand_eq, if_neg (by omega)]
  | case2 val rest ih =>
    rw [encodeRuns] at h
    have hsame := replicate_takeWhile val rest
    have hrest := takeWhile_append_dropWhile (p := (· == val)) (l := rest)
    generalize rest.takeWhile (· == val) = same at h hsame hrest
    generalize rest.dropWhile (· == val) = tail at h hrest ih
    have hlength := congrArg length hrest
    rw [length_append] at hlength
    rw [length_cons] at hpos
    have hread := readVarint_uvarint h (by omega)
    obtain ⟨hmore, hend⟩ := readVarint_progress hread
    have hdrop := congrArg (drop (uvarint (2 * (same.length + 1))).length) h
    rw [drop_drop, drop_left] at hdrop
    have hvalue := readRLEValue_littleEndian (hlevels val mem_cons_self) hend hdrop
    have hnext := congrArg (drop ((w + 7) / 8)) hdrop
    rw [drop_drop, drop_left' (length_littleEndian _ _)] at hnext
    have hgroup : groupAt data w strict count off pos =
        .emit (.run val (same.length + 1))
          (off + (uvarint (2 * (same.length + 1))).length + (w + 7) / 8) := by
      unfold groupAt
      rw [hread]
      dsimp only
      rw [if_pos (by omega), hvalue]
      dsimp only
      rw [if_neg (by omega), Nat.mul_div_cancel_left _ (by decide), Nat.min_eq_left (by omega)]
    have htail := ih (fun v hv => hlevels v (mem_cons_of_mem _ (hrest ▸ mem_append_right _ hv)))
      (by omega : pos + (same.length + 1) + _ = count) hnext
    rw [expand_eq, if_pos (by omega), hgroup]
    dsimp only [Burst.size, Burst.values]
    rw [htail, Option.map_some, replicate_succ, hsame, cons_append, hrest]

-- Repetition or definition levels of a page of n entries.
structure Levels (max n : Nat) where
  list : List (BitVec 32)
  length : list.length = n
  le : ∀ level ∈ list, level.toNat ≤ max
  fits : max < 2 ^ 31
  page : n ≤ maxPageValues

namespace Levels

variable {max n : Nat} (levels : Levels max n)

theorem encode_eq : encodeLevelsRLE levels.list n (bitsRequired max) =
    encodeRuns ((bitsRequired max + 7) / 8) levels.list := by
  have hlist : (range n).map (levels.list.getD · 0) = levels.list := by
    apply ext_getElem <;> simp +contextual [levels.length]
  rw [encodeLevelsRLE, hlist]

def encoded : Bytes where
  data := encodeLevelsRLE levels.list n (bitsRequired max)
  fits := by
    have hbits := (bitsRequired_le_iff max 31).mpr levels.fits
    have hpage : n ≤ 2 ^ 24 := levels.page
    have hbytes : (bitsRequired max + 7) / 8 + 3 ≤ 2 ^ 3 := by omega
    have hlength := length_encodeRuns_le ((bitsRequired max + 7) / 8) levels.list
    rw [levels.length] at hlength
    rw [levels.encode_eq]
    exact (hlength.trans (Nat.mul_le_mul hpage hbytes)).trans_lt (by decide)

end Levels

theorem levels_roundTrip {max n : Nat} (levels : Levels max n) (strict : Bool)
    (dst : List (BitVec 32)) (hdst : dst.length = n) :
    decodeAllBatch levels.encoded (bitsRequired max) strict dst = some ⟨n, none, levels.list⟩ ∧
      ∃ runs last, Runs levels.encoded (bitsRequired max) n newRLERunIterator runs last ∧
        expandRuns runs = levels.list ∧ last.err = none := by
  have hwidth : ∀ level ∈ levels.list, level.toNat < 2 ^ bitsRequired max := fun level hlevel =>
    (levels.le level hlevel).trans_lt ((bitsRequired_le_iff _ _).mp le_rfl)
  have hexpand : ∀ strict, expand levels.encoded.data _ strict n 0 0 = some (levels.list, none) :=
    fun strict => expand_encodeRuns strict levels.page hwidth
      ((Nat.zero_add _).trans levels.length) levels.encode_eq
  refine ⟨?_, runs_expand between_start (hexpand false)⟩
  subst hdst
  have hloop := @decodeLoop_spec _ (bitsRequired max) strict dst 0 0 levels.encoded.fits levels.page
    (Nat.zero_le _)
  rw [hexpand] at hloop
  rw [decodeAllBatch, show (0 : Int) = (0 : Nat) from rfl, hloop.2, stored, levels.length]
  simp

theorem levels_roundTrip_optional :
    ∃ levels : Levels 1 3, levels.encoded.data = [4, 1, 2, 0] ∧
      (decodeAllBatch levels.encoded (bitsRequired 1) true [0, 0, 0]).map Decoded.dst =
        some [1, 1, 0] := by
  refine ⟨⟨[1, 1, 0], rfl, by simp, by simp, by simp [maxPageValues]⟩, ?_, ?_⟩
  · simp [Levels.encoded, encodeLevelsRLE, encodeRuns, bitsRequired, uvarint, littleEndian, range_succ]
  · rw [(levels_roundTrip _ true [0, 0, 0] rfl).1]
    rfl

end Wadjet.Storage.Parquet
