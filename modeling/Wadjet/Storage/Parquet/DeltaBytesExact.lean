import Wadjet.Storage.Parquet.DeltaBytes
import Wadjet.Storage.Parquet.DeltaExact

namespace Wadjet.Storage.Parquet

open Wadjet.Data List

structure ByteArrays.Spans (n : Int) (v : ByteArrays) : Prop where
  count : (v.offsets.length : Int) = n + 1
  first : v.offsets.head? = some 0
  last : v.offsets.getLast? = some v.data.length

structure ByteArrays.Sound (n : Int) (v : ByteArrays) : Prop extends v.Spans n where
  ordered : v.offsets.Pairwise (· ≤ ·)

-- The bytes cut into pieces of the given lengths.
def pieces (rest : List UInt8) : List Nat → List (List UInt8)
  | [] => []
  | l :: lengths => rest.take l :: pieces (rest.drop l) lengths

theorem slicesOf_cons {data : List UInt8} {offsets : List Nat} {a b : Nat}
    (h : offsets.head? = some b) :
    slicesOf data (a :: offsets) = (data.drop a).take (b - a) :: slicesOf data offsets := by
  cases offsets with
  | nil => cases h
  | cons c offsets =>
    obtain rfl := Option.some.inj h
    rfl

section DataEnd

variable {data rest : List UInt8} {num size off remaining : Nat}

theorem skipVarintFrom_of_read {shift result v off' : Nat}
    (h : readVarintFrom data off shift result = .ok (v, off')) :
    skipVarintFrom off shift result (data.drop off) = (v, off') := by
  fun_induction readVarintFrom data off shift result with
  | case1 => cases h
  | case2 off shift result b hb result' hlast =>
    obtain ⟨hlt, rfl⟩ := List.getElem?_eq_some_iff.mp hb
    rw [drop_eq_getElem_cons hlt]
    exact (if_pos hlast).trans (Except.ok.inj h)
  | case3 => cases h
  | case4 off shift result b hb result' hmore hroom ih =>
    obtain ⟨hlt, rfl⟩ := List.getElem?_eq_some_iff.mp hb
    rw [drop_eq_getElem_cons hlt]
    exact (if_neg hmore).trans (ih h)

theorem skipVarint_uvarint {v : Nat} (hdata : data.drop off = uvarint v ++ rest) (hv : v < 2 ^ 64) :
    skipVarint data off = (v, off + (uvarint v).length) :=
  skipVarintFrom_of_read (readVarint_uvarint hdata hv)

theorem skipMiniblocks_spec {spare : List UInt8} {minis : List Miniblock}
    (h : ∀ m ∈ minis, m.WellFormed size) (hneeded : minis.length * size < remaining + size)
    (hspare : spare = [] ∨ remaining ≤ minis.length * size) :
    skipMiniblocks size (minis.map (fun m => UInt8.ofNat m.width) ++ spare) off remaining =
      (off + (minis.flatMap fun m => packBits m.width m.deltas).length,
        remaining - minis.length * size) := by
  induction minis generalizing off remaining with
  | nil =>
    cases spare with
    | nil => simp [skipMiniblocks]
    | cons bw spare =>
      rw [length_nil, Nat.zero_mul, Nat.le_zero] at hspare
      have hzero := hspare.resolve_left (cons_ne_nil _ _)
      simp [skipMiniblocks, hzero]
  | cons m minis ih =>
    obtain ⟨hm, hminis⟩ := forall_mem_cons.mp h
    have hwidth := hm.width
    have hbyte : (UInt8.ofNat m.width).toNat = m.width := by
      rw [UInt8.toNat_ofNat', Nat.mod_eq_of_lt (by omega)]
    have hoff : (if 0 < m.width then off + (size * m.width + 7) / 8 else off) =
        off + (packBits m.width m.deltas).length := by
      rw [length_packBits, hm.length]
      split_ifs with hpos
      · rfl
      · rw [show m.width = 0 by omega]
        omega
    rw [length_cons, Nat.succ_mul] at hneeded hspare
    rw [map_cons, cons_append, skipMiniblocks, if_neg (by omega), hbyte, hoff,
      ih hminis (by omega) (hspare.imp_right fun hspare => by omega), flatMap_cons, length_append,
      length_cons, Nat.succ_mul]
    exact Prod.ext (by dsimp only; omega) (by dsimp only; omega)

theorem skipBlocks_spec (hsize : 0 < size) {blocks : List Block} {fuel : Nat}
    (h : ∀ b ∈ blocks, b.WellFormed num size) (hfull : ∀ b ∈ blocks.dropLast, b.spare = [])
    (hdata : data.drop off = blocks.flatMap Block.bytes ++ rest) (hfuel : remaining ≤ fuel)
    (henough : remaining ≤ (blocks.flatMap Block.slots).length)
    (hneeded : (blocks.flatMap Block.slots).length < remaining + size) :
    skipBlocks data num size fuel off remaining = off + (blocks.flatMap Block.bytes).length := by
  induction blocks generalizing off fuel remaining with
  | nil =>
    obtain rfl := Nat.le_zero.mp henough
    cases fuel with
    | zero => rfl
    | succ fuel => exact if_pos (.inl rfl)
  | cons b blocks ih =>
    obtain ⟨hb, hblocks⟩ := forall_mem_cons.mp h
    have hpos : size ≤ b.slots.length := by
      rw [length_blockSlots hb]
      exact Nat.le_mul_of_pos_left _ (length_pos_iff.mpr hb.stored)
    rw [flatMap_cons, length_append] at henough hneeded
    rw [flatMap_cons, append_assoc] at hdata
    obtain ⟨hlast, hfull'⟩ := full_blocks hfull
    have hspare : b.spare = [] ∨ remaining ≤ b.slots.length :=
      hlast.symm.imp_right fun hlast => by simpa [hlast] using henough
    obtain ⟨fuel, rfl⟩ : ∃ n, fuel = n + 1 := ⟨fuel - 1, by omega⟩
    have hrest := drop_past hdata
    obtain ⟨widths, packed, hvarint, hpacked, hlt, hroom, htake, -, hend⟩ := hb.layout hdata
    have hnum := congrArg length htake
    rw [length_take, length_drop] at hnum
    rw [length_blockSlots hb] at hpos hneeded henough hspare
    rw [skipBlocks, if_neg (by omega), skipVarint_uvarint hvarint (zigzag_lt _)]
    dsimp only
    rw [htake, ← hnum, Nat.sub_eq_zero_of_le (by omega), replicate_zero, append_nil, ← hpacked,
      skipMiniblocks_spec hb.minis (by omega) hspare]
    dsimp only
    rw [hend, ih hblocks hfull' hrest (by omega) (by omega) (by omega), flatMap_cons, length_append]
    omega

theorem findDeltaDataEnd_bytes {e : Encoding} (h : e.WellFormed) (hne : e.values ≠ [])
    (rest : List UInt8) : findDeltaDataEnd (e.bytes ++ rest) = e.bytes.length := by
  obtain ⟨hnum, hsize⟩ := h.miniblockSize_pos
  have hcount := h.count
  have hnum' : e.numMiniblocks < 2 ^ 64 := Nat.lt_of_le_of_lt (Nat.le_of_dvd h.pos h.divides) h.varint
  have hmini : miniblockSizeOf e.blockSize e.numMiniblocks = e.miniblockSize :=
    if_neg (Nat.ne_of_gt hsize)
  have hlength := length_pos_iff.mpr hne
  have h0 := e.drop_bytes rest
  have h1 := drop_past h0
  have h2 := drop_past h1
  have h3 := drop_past h2
  have h4 := drop_past h3
  unfold findDeltaDataEnd
  rw [skipVarint_uvarint h0 h.varint]
  dsimp only
  rw [skipVarint_uvarint h1 hnum']
  dsimp only
  rw [skipVarint_uvarint h2 (by omega)]
  dsimp only
  rw [skipVarint_uvarint h3 (zigzag_lt _), if_neg (by omega), hmini,
    skipBlocks_spec hsize h.blocks h.full h4 (Nat.le_refl _) h.enough h.needed, Encoding.bytes]
  simp only [length_append]
  omega

end DataEnd

section Declared

variable {e : Encoding} {rest : List UInt8} {n : Int}

-- Every delta that the first `n` values need is read as it is.
def Encoding.Legible (e : Encoding) (n : Int) : Prop :=
  ∀ s ∈ e.slots.take (n.toNat - 1), s.Fits

theorem take_follow (prev : BitVec 64) (steps : List (BitVec 64)) (k : Nat) :
    (follow prev steps).take k = follow prev (steps.take k) := by
  induction steps generalizing prev k with
  | nil => simp [follow]
  | cons step steps ih =>
    cases k with
    | zero => rfl
    | succ k => rw [follow, take_succ_cons, take_succ_cons, follow, ih]

theorem Encoding.WellFormed.take_values (h : e.WellFormed) {k : Nat} (hpos : 0 < k)
    (hk : k ≤ e.values.length) : e.values.take k = e.values.headD 0 ::
      follow (e.values.headD 0) ((e.slots.take (k - 1)).map Slot.step) := by
  obtain ⟨k, rfl⟩ : ∃ j, k = j + 1 := ⟨k - 1, by omega⟩
  have hfollows := h.follows
  cases hv : e.values with
  | nil => simp [hv] at hk
  | cons v values =>
    rw [hv, length_cons] at hk
    rw [hv, length_cons, tail_cons, Nat.add_sub_cancel] at hfollows
    rw [take_succ_cons, hfollows, take_follow, ← map_take, take_take, Nat.add_sub_cancel,
      Nat.min_eq_left (by omega)]
    rfl

-- What is read is what the stream declares.
theorem decodeDeltaBinaryPacked_declared (h : e.WellFormed) (hlegible : e.Legible n)
    (hlow : -2 ^ 63 ≤ n) (hhigh : n < 2 ^ 63) (hn : n ≠ 0) {values : List (BitVec 64)}
    (hdecode : decodeDeltaBinaryPacked (e.bytes ++ rest) n = .ok values) :
    values = e.values.take n.toNat ∧ e.values ≠ [] := by
  obtain ⟨hblock, hpage, hpos, hle⟩ := decodeDeltaBinaryPacked_limits h hlow hhigh hn hdecode
  have hread := decodeDeltaBinaryPacked_bytes h rest (by omega : 0 < n.toNat) (by omega) hblock hpage
  have hsteps : (e.slots.take (n.toNat - 1)).map Slot.read =
      (e.slots.take (n.toNat - 1)).map Slot.step :=
    map_congr_left fun s hs =>
      (Slot.read_eq_step_iff (h.delta_lt (mem_of_mem_take hs))).mpr (hlegible s hs)
  rw [Int.toNat_of_nonneg hpos.le, hsteps] at hread
  refine ⟨?_, length_pos_iff.mp (by omega)⟩
  rw [h.take_values (by omega) (by omega)]
  exact Except.ok.inj (hdecode.symm.trans hread)

end Declared

section Lengths

def offsetsFrom (total : Nat) : List (BitVec 64) → List Nat
  | [] => [total]
  | l :: lengths => total :: offsetsFrom ((total + l.toNat % 2 ^ 32) % 2 ^ 32) lengths

variable {total : Nat} {lengths : List (BitVec 64)}

theorem sumLengths_eq {i : Nat} {offsets : List Nat}
    (h : sumLengths i total lengths = .ok offsets) : offsets = offsetsFrom total lengths := by
  induction lengths generalizing i total offsets with
  | nil =>
    cases h
    rfl
  | cons l lengths ih =>
    rw [sumLengths] at h
    split_ifs at h with hneg
    obtain ⟨rest, hrest, rfl⟩ := except_map_ok h
    rw [offsetsFrom, ih hrest]

theorem length_offsetsFrom (total : Nat) (lengths : List (BitVec 64)) :
    (offsetsFrom total lengths).length = lengths.length + 1 := by
  induction lengths generalizing total with
  | nil => rfl
  | cons l lengths ih => rw [offsetsFrom, length_cons, ih, length_cons]

theorem offsetsFrom_eq_cons (total : Nat) (lengths : List (BitVec 64)) :
    ∃ rest, offsetsFrom total lengths = total :: rest := by
  cases lengths with
  | nil => exact ⟨[], rfl⟩
  | cons l lengths => exact ⟨_, rfl⟩

theorem ordered_offsetsFrom_iff (htotal : total < 2 ^ 32) (lengths : List (BitVec 64)) :
    (offsetsFrom total lengths).Pairwise (· ≤ ·) ↔
      total + (lengths.map fun l => l.toNat % 2 ^ 32).sum < 2 ^ 32 := by
  induction lengths generalizing total with
  | nil =>
    exact iff_of_true (pairwise_singleton _ _) htotal
  | cons l lengths ih =>
    have hword : l.toNat % 2 ^ 32 < 2 ^ 32 := Nat.mod_lt _ (by decide)
    have hnext : (total + l.toNat % 2 ^ 32) % 2 ^ 32 < 2 ^ 32 := Nat.mod_lt _ (by decide)
    rw [offsetsFrom, pairwise_cons, ih hnext, map_cons, sum_cons, ← Nat.add_assoc]
    generalize l.toNat % 2 ^ 32 = x at hword hnext ⊢
    generalize hsum : (lengths.map fun l => l.toNat % 2 ^ 32).sum = sum
    obtain ⟨rest, hrest⟩ := offsetsFrom_eq_cons ((total + x) % 2 ^ 32) lengths
    have hordered := ih hnext
    rw [hrest, pairwise_cons, hsum] at hordered
    rw [hrest]
    constructor
    · rintro ⟨hle, hlt⟩
      have hhead := hle _ mem_cons_self
      by_contra hwide
      have hfits : total + x < 2 ^ 32 := by omega
      rw [Nat.mod_eq_of_lt hfits] at hlt
      exact hwide hlt
    · intro hlt
      rw [Nat.mod_eq_of_lt (by omega : total + x < 2 ^ 32)] at hordered ⊢
      refine ⟨fun y hy => ?_, hlt⟩
      obtain rfl | hy := mem_cons.mp hy
      · exact Nat.le_add_right _ _
      · exact Nat.le_trans (Nat.le_add_right _ _) ((hordered.mpr hlt).1 y hy)

theorem decodeDeltaLengthByteArray_spec {data : List UInt8} {n : Int} (hlow : -2 ^ 63 ≤ n)
    (hhigh : n < 2 ^ 63) {v : ByteArrays} (hn : n ≠ 0) (h : decodeDeltaLengthByteArray data n = .ok v) :
    ∃ lengths, decodeDeltaBinaryPacked data n = .ok lengths ∧ v.offsets = offsetsFrom 0 lengths ∧
      v.data = (data.drop (findDeltaDataEnd data)).take (v.offsets.getLastD 0) ∧
      findDeltaDataEnd data + v.offsets.getLastD 0 ≤ data.length ∧ v.Spans n := by
  unfold decodeDeltaLengthByteArray at h
  rw [if_neg hn] at h
  split at h
  · cases h
  next lengths hlengths =>
    dsimp only at h
    split_ifs at h with hend
    split at h
    · cases h
    next offsets hsum =>
      split_ifs at h with hroom
      cases h
      obtain rfl := sumLengths_eq hsum
      obtain ⟨rest, hrest⟩ := offsetsFrom_eq_cons 0 lengths
      have hcount := decodeDeltaBinaryPacked_length hlow hhigh hlengths
      refine ⟨lengths, hlengths, rfl, rfl, not_lt.mp hroom, ?_, ?_, ?_⟩
      · rw [length_offsetsFrom]
        omega
      · rw [hrest]
        rfl
      · rw [length_take, length_drop, Nat.min_eq_left (by omega), hrest, getLastD_cons,
          getLast?_cons, getLastD_eq_getLast?]

theorem offsetsFrom_exact (h : total + (lengths.map BitVec.toNat).sum < 2 ^ 32) :
    (offsetsFrom total lengths).getLastD 0 = total + (lengths.map BitVec.toNat).sum ∧
      ∀ (rest : List UInt8) (stop : Nat), total + (lengths.map BitVec.toNat).sum ≤ stop →
        slicesOf (rest.take stop) (offsetsFrom total lengths) =
          pieces (rest.drop total) (lengths.map BitVec.toNat) := by
  induction lengths generalizing total with
  | nil => exact ⟨rfl, fun _ _ _ => rfl⟩
  | cons l lengths ih =>
    rw [map_cons, sum_cons, ← Nat.add_assoc] at h ⊢
    obtain ⟨hlast, hslices⟩ := ih (show total + l.toNat + _ < 2 ^ 32 from h)
    obtain ⟨tail, htail⟩ := offsetsFrom_eq_cons (total + l.toNat) lengths
    rw [offsetsFrom, Nat.mod_eq_of_lt (show l.toNat < 2 ^ 32 by omega),
      Nat.mod_eq_of_lt (show total + l.toNat < 2 ^ 32 by omega)]
    constructor
    · rw [← hlast, htail, getLastD_cons, getLastD_cons, getLastD_cons]
    · intro rest stop hstop
      have hslice : ((rest.take stop).drop total).take (total + l.toNat - total) =
          (rest.drop total).take l.toNat := by
        rw [drop_take, take_take]
        congr 1
        omega
      rw [slicesOf_cons (by rw [htail]; rfl), hslice, hslices rest stop hstop, pieces, drop_drop]

end Lengths

section Prefixes

-- The values that prefixes of the value before and suffixes make.
def Restores (prev : List UInt8) : List (BitVec 64) → List (List UInt8) → List (List UInt8) → Prop
  | [], [], [] => True
  | p :: prefixes, suffix :: suffixes, value :: values =>
    0 ≤ p.toInt ∧ p.toInt ≤ prev.length ∧ value = prev.take p.toInt.toNat ++ suffix ∧
      Restores value prefixes suffixes values
  | _, _, _ => False

def PrefixesFit (prev : Nat) : List (BitVec 64) → List Nat → Prop
  | p :: prefixes, l :: lengths =>
    0 ≤ p.toInt ∧ p.toInt ≤ prev ∧ PrefixesFit (p.toInt.toNat + l) prefixes lengths
  | _, _ => True

def totalLength : List (BitVec 64) → List Nat → Nat
  | p :: prefixes, l :: lengths => p.toInt.toNat + l + totalLength prefixes lengths
  | _, _ => 0

variable {prev packed suffixData : List UInt8} {prefixes : List (BitVec 64)} {v : ByteArrays}
  {suffixes values : List (List UInt8)} {offsets : List Nat}

theorem map_length_pieces {rest : List UInt8} {lengths : List Nat} (h : lengths.sum ≤ rest.length) :
    (pieces rest lengths).map length = lengths := by
  induction lengths generalizing rest with
  | nil => rfl
  | cons l lengths ih =>
    rw [sum_cons] at h
    rw [pieces, map_cons, length_take, Nat.min_eq_left (by omega), ih (by rw [length_drop]; omega)]

theorem sum_le_totalLength {lengths : List Nat} (h : lengths.length = prefixes.length) :
    lengths.sum ≤ totalLength prefixes lengths := by
  induction prefixes generalizing lengths with
  | nil => rw [length_eq_zero_iff.mp h]; exact Nat.le_refl _
  | cons p prefixes ih =>
    match lengths, h with
    | l :: lengths, h =>
      have hsum := ih (Nat.succ.inj h)
      rw [sum_cons, totalLength]
      omega

theorem Restores.fit (h : Restores prev prefixes suffixes values) :
    PrefixesFit prev.length prefixes (suffixes.map length) ∧
      (values.map length).sum = totalLength prefixes (suffixes.map length) := by
  induction prefixes generalizing prev suffixes values with
  | nil =>
    match suffixes, values, h with
    | [], [], _ => exact ⟨trivial, rfl⟩
  | cons p prefixes ih =>
    match suffixes, values, h with
    | suffix :: suffixes, value :: values, ⟨hpos, hle, hvalue, hrest⟩ =>
      have hlength : value.length = p.toInt.toNat + suffix.length := by
        rw [hvalue, length_append, length_take, Nat.min_eq_left (by omega)]
      obtain ⟨hfit, hsum⟩ := ih hrest
      rw [hlength] at hfit
      refine ⟨⟨hpos, hle, hfit⟩, ?_⟩
      rw [map_cons, map_cons, sum_cons, hlength, hsum, totalLength]

theorem sum_slicesOf {data : List UInt8} {a : Nat} (hordered : (a :: offsets).Pairwise (· ≤ ·))
    (hlast : (a :: offsets).getLast? = some data.length) :
    a + ((slicesOf data (a :: offsets)).map length).sum = data.length := by
  induction offsets generalizing a with
  | nil => exact Option.some.inj hlast
  | cons b offsets ih =>
    obtain ⟨hle, hordered⟩ := pairwise_cons.mp hordered
    have hsum := ih hordered ((getLast?_cons_of_ne_nil (cons_ne_nil b offsets)).symm.trans hlast)
    have hab := hle b mem_cons_self
    rw [slicesOf_cons rfl, map_cons, sum_cons, length_take, length_drop]
    omega

theorem keptPrefix_eq {p : Int} (hpos : 0 ≤ p) (hle : p ≤ prev.length) :
    keptPrefix prev p = prev.take p.toNat := by
  unfold keptPrefix
  split_ifs with hkeep
  · rfl
  · rw [show p = 0 by omega]
    rfl

structure Rebuilt (packed prev : List UInt8) (prefixes : List (BitVec 64))
    (suffixes : List (List UInt8)) (v : ByteArrays) : Prop where
  grows : ∃ rest, v.data = packed ++ rest
  count : v.offsets.length = prefixes.length + 1
  first : v.offsets.head? = some packed.length
  ordered : v.offsets.Pairwise (· ≤ ·)
  last : v.offsets.getLast? = some v.data.length
  restores : Restores prev prefixes suffixes v.values

theorem Rebuilt.cons {p : BitVec 64} {suffix value : List UInt8} (hpos : 0 ≤ p.toInt)
    (hle : p.toInt ≤ prev.length) (hvalue : value = prev.take p.toInt.toNat ++ suffix)
    (h : Rebuilt (packed ++ value) value prefixes suffixes v) :
    Rebuilt packed prev (p :: prefixes) (suffix :: suffixes) ⟨v.data, packed.length :: v.offsets⟩ := by
  obtain ⟨rest, hrest⟩ := h.grows
  obtain ⟨tail, htail⟩ := head?_eq_some_iff.mp h.first
  have hordered := h.ordered
  rw [htail, length_append] at hordered
  refine ⟨⟨value ++ rest, by rw [hrest, append_assoc]⟩, congrArg Nat.succ h.count, rfl, ?_, ?_, ?_⟩
  · rw [pairwise_cons]
    refine ⟨fun x hx => ?_, h.ordered⟩
    rw [htail, length_append] at hx
    obtain rfl | hx := mem_cons.mp hx
    · exact Nat.le_add_right _ _
    · exact Nat.le_trans (Nat.le_add_right _ _) ((pairwise_cons.mp hordered).1 x hx)
  · rw [← h.last]
    exact getLast?_cons_of_ne_nil (by rw [htail]; exact cons_ne_nil _ _)
  · have hslice : (v.data.drop packed.length).take ((packed ++ value).length - packed.length) = value := by
      rw [hrest, append_assoc, drop_left, length_append, Nat.add_sub_cancel_left, take_left]
    rw [ByteArrays.values, slicesOf_cons h.first, hslice]
    exact ⟨hpos, hle, hvalue, h.restores⟩

-- Every start is below 2 ^ 32, so what is dropped to get the value before is all that precedes it.
theorem rebuild_spec (hlength : offsets.length = prefixes.length + 1)
    (hfit : PrefixesFit prev.length prefixes ((slicesOf suffixData offsets).map length))
    (hroom : packed.length + totalLength prefixes ((slicesOf suffixData offsets).map length) < 2 ^ 32)
    (h : rebuild suffixData packed prev prefixes offsets = .ok v) :
    Rebuilt packed prev prefixes (slicesOf suffixData offsets) v := by
  induction prefixes generalizing packed prev offsets v with
  | nil =>
    obtain ⟨o, rfl⟩ := length_eq_one_iff.mp hlength
    cases h
    have hstart : packed.length % 2 ^ 32 = packed.length := Nat.mod_eq_of_lt (by omega)
    exact ⟨⟨[], (append_nil _).symm⟩, rfl, congrArg some hstart, pairwise_singleton _ _,
      congrArg some hstart, trivial⟩
  | cons p prefixes ih =>
    match offsets, hlength with
    | o :: o' :: offsets, hlength =>
      rw [rebuild] at h
      split_ifs at h with hslice
      dsimp only at h
      obtain ⟨v', hrest, rfl⟩ := except_map_ok h
      obtain ⟨hpos, hle, hfit⟩ := hfit
      rw [slicesOf, map_cons, totalLength] at hroom
      have hvalue : (prev.take p.toInt.toNat ++ (suffixData.drop o).take (o' - o)).length =
          p.toInt.toNat + ((suffixData.drop o).take (o' - o)).length := by
        rw [length_append, length_take, Nat.min_eq_left (by omega)]
      rw [keptPrefix_eq hpos hle, Nat.mod_eq_of_lt (by omega), drop_left] at hrest
      rw [Nat.mod_eq_of_lt (by omega), slicesOf]
      refine .cons hpos hle rfl (ih (Nat.succ.inj hlength) ?_ ?_ hrest)
      · rwa [hvalue]
      · rw [length_append, hvalue]
        omega

theorem rebuild_last (hlength : offsets.length = prefixes.length + 1)
    (h : rebuild suffixData packed prev prefixes offsets = .ok v) :
    v.offsets.getLast? = some (v.data.length % 2 ^ 32) := by
  induction prefixes generalizing packed prev offsets v with
  | nil =>
    obtain ⟨o, rfl⟩ := length_eq_one_iff.mp hlength
    cases h
    rfl
  | cons p prefixes ih =>
    match offsets, hlength with
    | o :: o' :: offsets, hlength =>
      rw [rebuild] at h
      split_ifs at h with hslice
      dsimp only at h
      obtain ⟨v', hrest, rfl⟩ := except_map_ok h
      have hlast := ih (Nat.succ.inj hlength) hrest
      rw [← hlast]
      refine getLast?_cons_of_ne_nil fun hnil => ?_
      rw [hnil] at hlast
      cases hlast

end Prefixes

variable {data : List UInt8} {n : Int} {v : ByteArrays}

theorem decodeDeltaByteArray_parts (hlow : -2 ^ 63 ≤ n) (hhigh : n < 2 ^ 63)
    (hn : n ≠ 0) (h : decodeDeltaByteArray data n = .ok v) :
    ∃ prefixes suffixes, decodeDeltaBinaryPacked data n = .ok prefixes ∧
      decodeDeltaLengthByteArray (data.drop (findDeltaDataEnd data)) n = .ok suffixes ∧
      rebuild suffixes.data [] [] prefixes suffixes.offsets = .ok v := by
  unfold decodeDeltaByteArray at h
  rw [if_neg hn] at h
  split at h
  · cases h
  next prefixes hprefixes =>
    have hcount := decodeDeltaBinaryPacked_length hlow hhigh hprefixes
    dsimp only at h
    rw [show min n (prefixes.length : Int) = n by omega, if_neg hn] at h
    split_ifs at h with hstart
    split at h
    · cases h
    next suffixes hsuffixes =>
      rw [take_of_length_le (by omega)] at h
      exact ⟨prefixes, suffixes, hprefixes, hsuffixes, h⟩

section Streams

variable {lengths prefixes : Encoding} {rest : List UInt8} (hlow : -2 ^ 63 ≤ n) (hhigh : n < 2 ^ 63)
  (hlengths : lengths.WellFormed) (hlegible : lengths.Legible n)

include hlow hhigh hlengths hlegible

theorem lengths_sound_iff (h : decodeDeltaLengthByteArray (lengths.bytes ++ rest) n = .ok v) :
    v.Sound n ↔ n ≠ 0 ∧ ((lengths.values.take n.toNat).map fun l => l.toNat % 2 ^ 32).sum < 2 ^ 32 := by
  by_cases hn : n = 0
  · subst hn
    cases h
    exact iff_of_false (fun hsound => absurd hsound.count (by decide)) fun h => h.1 rfl
  obtain ⟨read, hread, hoffsets, -, -, hspans⟩ := decodeDeltaLengthByteArray_spec hlow hhigh hn h
  obtain ⟨rfl, -⟩ := decodeDeltaBinaryPacked_declared hlengths hlegible hlow hhigh hn hread
  have hordered := ordered_offsetsFrom_iff (by decide : 0 < 2 ^ 32) (lengths.values.take n.toNat)
  rw [← hoffsets, Nat.zero_add] at hordered
  rw [and_iff_right hn, ← hordered]
  exact ⟨fun hsound => hsound.ordered, fun h => ⟨hspans, h⟩⟩

theorem suffixes_exact (hn : n ≠ 0) (h : decodeDeltaLengthByteArray (lengths.bytes ++ rest) n = .ok v) :
    (lengths.values.take n.toNat).length = n.toNat ∧ v.offsets.length = n.toNat + 1 ∧
      (((lengths.values.take n.toNat).map BitVec.toNat).sum < 2 ^ 32 →
        v.values = pieces rest ((lengths.values.take n.toNat).map BitVec.toNat) ∧
        ((lengths.values.take n.toNat).map BitVec.toNat).sum ≤ rest.length) := by
  obtain ⟨read, hread, hoffsets, hdata, hroom, -⟩ := decodeDeltaLengthByteArray_spec hlow hhigh hn h
  obtain ⟨rfl, hne⟩ := decodeDeltaBinaryPacked_declared hlengths hlegible hlow hhigh hn hread
  have hcount := decodeDeltaBinaryPacked_length hlow hhigh hread
  rw [findDeltaDataEnd_bytes hlengths hne] at hdata hroom
  rw [drop_left] at hdata
  rw [length_append] at hroom
  refine ⟨by omega, by rw [hoffsets, length_offsetsFrom]; omega, fun hsum => ?_⟩
  obtain ⟨hlast, hslices⟩ := offsetsFrom_exact ((Nat.zero_add _).trans_lt hsum)
  rw [Nat.zero_add] at hlast hslices
  rw [hoffsets, hlast] at hroom hdata
  rw [ByteArrays.values, hdata, hoffsets, hslices rest _ (Nat.le_refl _), drop_zero]
  exact ⟨rfl, by omega⟩

theorem prefixes_sound_iff (hprefixes : prefixes.WellFormed) (hlegible' : prefixes.Legible n)
    (h : decodeDeltaByteArray (prefixes.bytes ++ (lengths.bytes ++ rest)) n = .ok v) :
    let declared := prefixes.values.take n.toNat
    let suffixLengths := (lengths.values.take n.toNat).map BitVec.toNat
    (v.Sound n ∧ suffixLengths.sum ≤ rest.length ∧
        Restores [] declared (pieces rest suffixLengths) v.values) ↔
      n ≠ 0 ∧ PrefixesFit 0 declared suffixLengths ∧ totalLength declared suffixLengths < 2 ^ 32 := by
  by_cases hn : n = 0
  · subst hn
    cases h
    exact iff_of_false (fun hsound => absurd hsound.1.count (by decide)) fun h => h.1 rfl
  obtain ⟨read, suffixes, hread, hsuffixes, hbuild⟩ := decodeDeltaByteArray_parts hlow hhigh hn h
  obtain ⟨rfl, hne⟩ := decodeDeltaBinaryPacked_declared hprefixes hlegible' hlow hhigh hn hread
  have hcount := decodeDeltaBinaryPacked_length hlow hhigh hread
  rw [findDeltaDataEnd_bytes hprefixes hne, drop_left] at hsuffixes
  obtain ⟨hcount', hoffsets, hexact⟩ := suffixes_exact hlow hhigh hlengths hlegible hn hsuffixes
  have hlength : suffixes.offsets.length = (prefixes.values.take n.toNat).length + 1 := by omega
  constructor
  · rintro ⟨hsound, hroom, hrestores⟩
    obtain ⟨hfit, hsum⟩ := hrestores.fit
    rw [map_length_pieces hroom] at hfit hsum
    refine ⟨hn, hfit, ?_⟩
    have hlast := Option.some.inj ((rebuild_last hlength hbuild).symm.trans hsound.last)
    obtain ⟨tail, htail⟩ := head?_eq_some_iff.mp hsound.first
    have hordered := hsound.ordered
    have hstop := hsound.last
    rw [htail] at hordered hstop
    have hslices := sum_slicesOf hordered hstop
    rw [← htail, Nat.zero_add] at hslices
    rw [← hsum, ByteArrays.values, hslices, ← hlast]
    exact Nat.mod_lt _ (by decide)
  · rintro ⟨-, hfit, htotal⟩
    obtain ⟨hvalues, hroom⟩ := hexact (lt_of_le_of_lt (sum_le_totalLength (by rw [length_map]; omega)) htotal)
    have hsizes := map_length_pieces hroom
    rw [← hvalues, ByteArrays.values] at hsizes
    rw [← hvalues]
    have hbuilt := rebuild_spec hlength (by rwa [hsizes]) (by rw [hsizes]; simpa using htotal) hbuild
    refine ⟨⟨⟨?_, hbuilt.first, hbuilt.last⟩, hbuilt.ordered⟩, hroom, hbuilt.restores⟩
    rw [hbuilt.count]
    omega

end Streams

-- A stream of one value.
def singleEncoding (value : BitVec 64) : Encoding where
  blockSize := 128
  numMiniblocks := 4
  values := [value]
  blocks := []

end Wadjet.Storage.Parquet
