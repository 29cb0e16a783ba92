import Wadjet.Storage.Parquet.Delta

namespace Wadjet.Storage.Parquet

open Wadjet.Data List

def zigzag (x : BitVec 64) : Nat :=
  if x.msb then 2 * (2 ^ 64 - x.toNat) - 1 else 2 * x.toNat

structure Miniblock where
  width : Nat
  deltas : List Nat

-- The miniblocks that a block stores, and the widths of those that it does not.
structure Block where
  minDelta : BitVec 64
  minis : List Miniblock
  spare : List UInt8

def Block.bytes (b : Block) : List UInt8 :=
  uvarint (zigzag b.minDelta) ++ (b.minis.map (fun m => UInt8.ofNat m.width) ++ (b.spare ++
    b.minis.flatMap fun m => packBits m.width m.deltas))

structure Slot where
  minDelta : BitVec 64
  width : Nat
  index : Nat
  delta : Nat

def Slot.step (s : Slot) : BitVec 64 :=
  s.minDelta + BitVec.ofNat 64 s.delta

-- What the unpacker makes of it: the bits of four bytes as a signed word.
def Slot.read (s : Slot) : BitVec 64 :=
  s.minDelta + (BitVec.ofNat 32 (s.delta % 2 ^ (32 - s.index * s.width % 8))).signExtend 64

def Slot.Fits (s : Slot) : Prop :=
  s.delta < 2 ^ 31 ∧ s.delta < 2 ^ (32 - s.index * s.width % 8) ∨
    s.index * s.width % 8 = 0 ∧ 2 ^ 64 - 2 ^ 31 ≤ s.delta

instance (s : Slot) : Decidable s.Fits :=
  inferInstanceAs (Decidable (_ ∨ _))

def Miniblock.slots (minDelta : BitVec 64) (m : Miniblock) : List Slot :=
  m.deltas.zipIdx.map fun (d, i) => ⟨minDelta, m.width, i, d⟩

def Block.slots (b : Block) : List Slot :=
  b.minis.flatMap (Miniblock.slots b.minDelta)

structure Encoding where
  blockSize : Nat
  numMiniblocks : Nat
  values : List (BitVec 64)
  blocks : List Block

def Encoding.miniblockSize (e : Encoding) : Nat :=
  e.blockSize / e.numMiniblocks

def Encoding.slots (e : Encoding) : List Slot :=
  e.blocks.flatMap Block.slots

def Encoding.bytes (e : Encoding) : List UInt8 :=
  uvarint e.blockSize ++ (uvarint e.numMiniblocks ++ (uvarint e.values.length ++
    (uvarint (zigzag (e.values.headD 0)) ++ e.blocks.flatMap Block.bytes)))

structure Miniblock.WellFormed (size : Nat) (m : Miniblock) : Prop where
  width : m.width ≤ 64
  length : m.deltas.length = size
  deltas : ∀ d ∈ m.deltas, d < 2 ^ m.width

structure Block.WellFormed (num size : Nat) (b : Block) : Prop where
  stored : b.minis ≠ []
  widths : b.minis.length + b.spare.length = num
  minis : ∀ m ∈ b.minis, m.WellFormed size

-- Only the last block leaves out miniblocks, and only those without a value.
structure Encoding.WellFormed (e : Encoding) : Prop where
  pos : 0 < e.blockSize
  multiple : 128 ∣ e.blockSize
  varint : e.blockSize < 2 ^ 64
  divides : e.numMiniblocks ∣ e.blockSize
  miniblock : 32 ∣ e.miniblockSize
  count : e.values.length < 2 ^ 63
  blocks : ∀ b ∈ e.blocks, b.WellFormed e.numMiniblocks e.miniblockSize
  full : ∀ b ∈ e.blocks.dropLast, b.spare = []
  enough : e.values.length - 1 ≤ e.slots.length
  needed : e.slots.length < e.values.length - 1 + e.miniblockSize
  follows : e.values.tail = follow (e.values.headD 0) ((e.slots.take (e.values.length - 1)).map Slot.step)

theorem drop_past {data l rest : List UInt8} {off : Nat} (h : data.drop off = l ++ rest) :
    data.drop (off + l.length) = rest := by
  rw [← drop_drop, h, drop_left]

theorem unzigzag_zigzag (x : BitVec 64) : unzigzag (zigzag x) = x := by
  unfold unzigzag zigzag
  cases hmsb : x.msb with
  | false =>
    simp
  | true =>
    rw [if_pos rfl, show (2 * (2 ^ 64 - x.toNat) - 1) / 2 = 2 ^ 64 - 1 - x.toNat by omega,
      show (2 * (2 ^ 64 - x.toNat) - 1) % 2 = 1 by omega]
    have hnot : BitVec.ofNat 64 (2 ^ 64 - 1 - x.toNat) = ~~~x := by
      apply BitVec.eq_of_toNat_eq
      rw [BitVec.toNat_not, BitVec.toNat_ofNat, Nat.mod_eq_of_lt (by omega)]
    have hones : -BitVec.ofNat 64 1 = BitVec.allOnes 64 := by decide
    rw [hnot, hones, BitVec.xor_allOnes, BitVec.not_not]

theorem zigzag_lt (x : BitVec 64) : zigzag x < 2 ^ 64 := by
  unfold zigzag
  cases hmsb : x.msb with
  | false =>
    have hbound := BitVec.toNat_lt_of_msb_false hmsb
    rw [if_neg Bool.false_ne_true]
    omega
  | true =>
    have hbound := BitVec.toNat_ge_of_msb_true hmsb
    rw [if_pos rfl]
    omega

theorem readZigzag_zigzag {data rest : List UInt8} {x : BitVec 64} {off : Nat}
    (hdata : data.drop off = uvarint (zigzag x) ++ rest) :
    readZigzag data off = .ok (x, off + (uvarint (zigzag x)).length) := by
  rw [readZigzag, readVarint_uvarint hdata (zigzag_lt x)]
  exact congrArg (fun y => Except.ok (y, off + (uvarint (zigzag x)).length)) (unzigzag_zigzag x)

theorem Slot.read_eq_step_iff {s : Slot} (hs : s.delta < 2 ^ 64) : s.read = s.step ↔ s.Fits := by
  unfold Slot.read Slot.step Slot.Fits
  have hshift : s.index * s.width % 8 < 8 := Nat.mod_lt _ (by decide)
  generalize s.index * s.width % 8 = b at hshift ⊢
  have hpow := Nat.two_pow_pos (32 - b)
  have hread : s.delta % 2 ^ (32 - b) < 2 ^ (32 - b) := Nat.mod_lt _ hpow
  have hword : 2 ^ (32 - b) ≤ 2 ^ 32 := Nat.pow_le_pow_right (by decide) (by omega)
  have hhalf : b ≠ 0 → 2 ^ (32 - b) ≤ 2 ^ 31 := fun hb => Nat.pow_le_pow_right (by decide) (by omega)
  have hzero : b = 0 → 2 ^ (32 - b) = 2 ^ 32 := by rintro rfl; rfl
  rw [BitVec.add_right_inj, ← BitVec.toNat_inj, BitVec.toNat_signExtend, BitVec.toNat_setWidth,
    BitVec.toNat_ofNat, BitVec.toNat_ofNat, BitVec.msb_eq_decide, BitVec.toNat_ofNat]
  generalize hr : s.delta % 2 ^ (32 - b) = r at hread
  rw [Nat.mod_eq_of_lt (Nat.lt_of_lt_of_le hread hword), Nat.mod_eq_of_lt (by omega : r < 2 ^ 64),
    Nat.mod_eq_of_lt hs]
  by_cases hsign : 2 ^ 31 ≤ r
  · -- the sign bit is read, so the value starts on a byte
    have hb : b = 0 := by
      by_contra hb
      omega
    rw [if_pos (decide_eq_true hsign)]
    rw [hzero hb] at hr ⊢
    omega
  · rw [if_neg (by rw [decide_eq_true_iff]; exact hsign), Nat.add_zero]
    constructor
    · rintro rfl
      exact .inl ⟨by omega, hread⟩
    · rintro (⟨-, hlt⟩ | ⟨hb, hge⟩)
      · rw [← hr, Nat.mod_eq_of_lt hlt]
      · rw [hzero hb] at hr
        omega

theorem follow_append (prev : BitVec 64) (steps more : List (BitVec 64)) :
    follow prev (steps ++ more) = follow prev steps ++ follow ((follow prev steps).getLastD prev) more := by
  induction steps generalizing prev with
  | nil => rfl
  | cons step steps ih =>
    rw [cons_append, follow, follow, ih, cons_append, getLastD_cons]

theorem follow_inj {prev : BitVec 64} {steps steps' : List (BitVec 64)} :
    follow prev steps = follow prev steps' ↔ steps = steps' := by
  refine ⟨fun h => ?_, fun h => by rw [h]⟩
  induction steps generalizing prev steps' with
  | nil =>
    have hlength := congrArg length h
    rw [length_follow, length_follow] at hlength
    exact (length_eq_zero_iff.mp hlength.symm).symm
  | cons step steps ih =>
    cases steps' with
    | nil => cases h
    | cons step' steps' =>
      rw [follow, follow, cons.injEq, BitVec.add_right_inj] at h
      obtain ⟨rfl, hrest⟩ := h
      rw [ih hrest]

theorem getLastD_append (l l' : List (BitVec 64)) (x : BitVec 64) :
    (l ++ l').getLastD x = l'.getLastD (l.getLastD x) := by
  induction l generalizing x with
  | nil => rfl
  | cons y l ih => rw [cons_append, getLastD_cons, getLastD_cons, ih]

section Blocks

variable {data : List UInt8} {num size : Nat} {minDelta : BitVec 64} {m : Miniblock}

theorem length_slots (h : m.WellFormed size) : (m.slots minDelta).length = size := by
  rw [Miniblock.slots, length_map, length_zipIdx, h.length]

theorem mem_slots {s : Slot} (h : s ∈ m.slots minDelta) :
    s.minDelta = minDelta ∧ s.width = m.width ∧ s.delta ∈ m.deltas := by
  obtain ⟨⟨d, i⟩, hd, rfl⟩ := mem_map.mp h
  exact ⟨rfl, rfl, fst_mem_of_mem_zipIdx hd⟩

theorem map_bitPackedValue (h : m.WellFormed size) (hwidth : 0 < m.width) :
    (decodeBitPackedRange (packBits m.width m.deltas) m.width 0 size).map
      (fun d => minDelta + d.signExtend 64) = (m.slots minDelta).map Slot.read := by
  refine ext_getElem? fun i => ?_
  rw [decodeBitPackedRange, Miniblock.slots, map_map, map_map, getElem?_map, getElem?_map,
    getElem?_zipIdx]
  by_cases hi : i < size
  · have hget : m.deltas[i]? = some (m.deltas.getD i 0) := by
      rw [getD_eq_getElem?_getD, getElem?_eq_getElem (h.length ▸ hi)]
      rfl
    have hvalue : bitPackedValue (packBits m.width m.deltas) m.width i =
        BitVec.ofNat 32 (m.deltas.getD i 0 % 2 ^ (32 - i * m.width % 8)) := by
      rw [← toNat_bitPackedValue_packBits hwidth h.deltas, BitVec.ofNat_toNat, BitVec.setWidth_eq]
    rw [getElem?_range hi, hget]
    simp [hvalue, Slot.read]
  · rw [getElem?_eq_none (by rw [length_range]; omega),
      getElem?_eq_none (by rw [h.length]; omega)]
    rfl

variable {rest : List UInt8} {s : Walk}

theorem decodeMiniblock_spec
    (hsize : 0 < size) (h : m.WellFormed size) (hdata : data.drop s.off = packBits m.width m.deltas ++ rest) :
    decodeMiniblock data size minDelta (UInt8.ofNat m.width) s =
      .ok (s.take size (s.off + (packBits m.width m.deltas).length) ((m.slots minDelta).map Slot.read)) := by
  have hwidth := h.width
  have hbyte : (UInt8.ofNat m.width).toNat = m.width := by
    rw [UInt8.toNat_ofNat', Nat.mod_eq_of_lt (by omega)]
  have hbytes : (packBits m.width m.deltas).length = (size * m.width + 7) / 8 := by
    rw [length_packBits, h.length]
  unfold decodeMiniblock
  by_cases hzero : m.width = 0
  · have hslots : (m.slots minDelta).map Slot.read = replicate size minDelta := by
      rw [eq_replicate_iff, length_map, length_slots h]
      refine ⟨rfl, fun x hx => ?_⟩
      obtain ⟨slot, hslot, rfl⟩ := mem_map.mp hx
      obtain ⟨hmin, -, hd⟩ := mem_slots hslot
      have hd := h.deltas _ hd
      rw [hzero, pow_zero, Nat.lt_one_iff] at hd
      rw [Slot.read, hd, hmin]
      exact BitVec.add_zero minDelta
    rw [hslots, hbytes, hzero, Nat.mul_zero]
    rfl
  · have hpos : 0 < size * m.width := Nat.mul_pos hsize (Nat.pos_of_ne_zero hzero)
    have hroom : s.off + (size * m.width + 7) / 8 ≤ data.length := by
      have := congrArg length hdata
      rw [length_drop, length_append] at this
      omega
    rw [if_neg (by rw [← UInt8.toNat_inj, hbyte]; exact hzero), hbyte]
    dsimp only
    rw [if_neg (by omega), ← hbytes, hdata, take_left, map_bitPackedValue h (Nat.pos_of_ne_zero hzero)]

-- What walking over `slots` makes of a state. A walk that still needs values has
-- come to `off`.
structure Walk.Reads (s : Walk) (slots : List Slot) (off : Nat) (s' : Walk) : Prop where
  result : s'.result = s.result ++
    follow (s.result.getLastD 0) ((slots.take s.remaining).map Slot.read)
  remaining : s'.remaining = s.remaining - slots.length
  off : s'.remaining ≠ 0 → s'.off = off

theorem Walk.Reads.done (h : s.remaining = 0) (slots : List Slot) (off : Nat) : s.Reads slots off s where
  result := by rw [h, take_zero, map_nil, follow, append_nil]
  remaining := by omega
  off := fun hne => (hne h).elim

theorem Walk.Reads.trans {s₁ s₂ : Walk} {slots more : List Slot} {off off' : Nat}
    (h : s.Reads slots off s₁) (h' : s₁.Reads more off' s₂) : s.Reads (slots ++ more) off' s₂ where
  result := by
    rw [h'.result, h.result, h.remaining, take_append, map_append, follow_append, getLastD_append,
      append_assoc]
  remaining := by rw [h'.remaining, h.remaining, length_append, Nat.sub_add_eq]
  off := h'.off

theorem Walk.take_reads {slots : List Slot} (hslots : slots.length = size) (off : Nat) :
    s.Reads slots off (s.take size off (slots.map Slot.read)) where
  result := by
    have htake : (slots.map Slot.read).take (min size s.remaining) =
        (slots.take s.remaining).map Slot.read := by
      rw [map_take, take_eq_take_iff, length_map]
      omega
    rw [Walk.take, htake]
  remaining := by
    change s.remaining - min size s.remaining = _
    omega
  off := fun _ => rfl

theorem decodeMiniblocks_spec (hsize : 0 < size) {spare : List UInt8}
    {minis : List Miniblock} (h : ∀ m ∈ minis, m.WellFormed size)
    (hdata : data.drop s.off = (minis.flatMap fun m => packBits m.width m.deltas) ++ rest)
    (hspare : spare = [] ∨ s.remaining ≤ minis.length * size) :
    ∃ s', decodeMiniblocks data size minDelta (minis.map (fun m => UInt8.ofNat m.width) ++ spare) s =
        .ok s' ∧
      s.Reads (minis.flatMap (Miniblock.slots minDelta))
        (s.off + (minis.flatMap fun m => packBits m.width m.deltas).length) s' := by
  induction minis generalizing s with
  | nil =>
    refine ⟨s, ?_, by simp [follow], rfl, fun _ => rfl⟩
    cases spare with
    | nil => rfl
    | cons bw spare =>
      rw [length_nil, Nat.zero_mul, Nat.le_zero] at hspare
      exact if_pos (hspare.resolve_left (cons_ne_nil _ _))
  | cons m minis ih =>
    obtain ⟨hm, hminis⟩ := forall_mem_cons.mp h
    rw [length_cons, Nat.succ_mul] at hspare
    rw [flatMap_cons, append_assoc] at hdata
    rw [map_cons, cons_append, decodeMiniblocks, flatMap_cons, flatMap_cons, length_append, ← Nat.add_assoc]
    by_cases hzero : s.remaining = 0
    · exact ⟨s, if_pos hzero, .done hzero _ _⟩
    · have hreads := @Walk.take_reads size s _ (@length_slots size minDelta m hm)
        (s.off + (packBits m.width m.deltas).length)
      have hremaining := hreads.remaining
      rw [length_slots hm] at hremaining
      obtain ⟨s', hrun, hreads'⟩ := @ih (s.take size _ ((m.slots minDelta).map Slot.read)) hminis
        (drop_past hdata) (hspare.imp_right fun hspare => by omega)
      rw [if_neg hzero, decodeMiniblock_spec hsize hm hdata]
      exact ⟨s', hrun, hreads.trans hreads'⟩

variable {b : Block}

theorem length_blockSlots (h : b.WellFormed num size) : b.slots.length = b.minis.length * size := by
  have hminis : b.minis.map (fun m => (m.slots b.minDelta).length) = b.minis.map fun _ => size :=
    map_congr_left fun m hm => length_slots (h.minis m hm)
  rw [Block.slots, length_flatMap, hminis, map_const', sum_replicate_nat]

-- A block in the data: its varint, the widths, and the packed miniblocks.
theorem Block.WellFormed.layout {off : Nat} (h : b.WellFormed num size)
    (hdata : data.drop off = b.bytes ++ rest) :
    ∃ widths packed, data.drop off = uvarint (zigzag b.minDelta) ++ widths ∧
      packed = off + (uvarint (zigzag b.minDelta)).length + num ∧ off < packed ∧ packed ≤ data.length ∧
      (data.drop (off + (uvarint (zigzag b.minDelta)).length)).take num =
        (b.minis.map fun m => UInt8.ofNat m.width) ++ b.spare ∧
      data.drop packed = (b.minis.flatMap fun m => packBits m.width m.deltas) ++ rest ∧
      packed + (b.minis.flatMap fun m => packBits m.width m.deltas).length = off + b.bytes.length := by
  unfold Block.bytes at hdata ⊢
  simp only [append_assoc] at hdata
  have hwidths : ((b.minis.map fun m => UInt8.ofNat m.width) ++ b.spare).length = num := by
    rw [length_append, length_map, h.widths]
  have hdata' := drop_past hdata
  rw [← append_assoc] at hdata'
  have hpacked := drop_past hdata'
  rw [hwidths] at hpacked
  have hstored := length_pos_iff.mpr h.stored
  have hcount := h.widths
  have hlength := congrArg length hdata'
  rw [length_drop, length_append, hwidths] at hlength
  refine ⟨_, _, hdata, rfl, by omega, by omega, ?_, hpacked, ?_⟩
  · rw [hdata', take_left' hwidths]
  · rw [length_append, ← append_assoc, length_append, hwidths]
    omega

theorem decodeBlock_spec (hsize : 0 < size)
    (h : b.WellFormed num size) (hdata : data.drop s.off = b.bytes ++ rest)
    (hspare : b.spare = [] ∨ s.remaining ≤ b.slots.length) :
    ∃ s', decodeBlock data num size s = .ok s' ∧ s.Reads b.slots (s.off + b.bytes.length) s' := by
  rw [length_blockSlots h] at hspare
  obtain ⟨widths, packed, hvarint, rfl, -, hroom, htake, hminis, hend⟩ := h.layout hdata
  unfold decodeBlock
  rw [readZigzag_zigzag hvarint]
  dsimp only
  rw [if_neg (by omega), htake]
  obtain ⟨s', hrun, hreads⟩ :=
    decodeMiniblocks_spec (s := ⟨_, s.remaining, s.result⟩) hsize h.minis hminis hspare
  exact ⟨s', hrun, hreads.result, hreads.remaining, fun hne => (hreads.off hne).trans hend⟩

-- Blocks before the last leave out nothing.
theorem full_blocks {b : Block} {blocks : List Block} (h : ∀ b' ∈ (b :: blocks).dropLast, b'.spare = []) :
    (blocks = [] ∨ b.spare = []) ∧ ∀ b' ∈ blocks.dropLast, b'.spare = [] := by
  cases blocks with
  | nil => exact ⟨.inl rfl, nofun⟩
  | cons c blocks => exact ⟨.inr (h b mem_cons_self), fun b' hb' => h b' (mem_cons_of_mem _ hb')⟩

theorem decodeBlocks_done {fuel : Nat} (h : s.remaining = 0) : decodeBlocks data num size fuel s = .ok s := by
  cases fuel with
  | zero => rfl
  | succ fuel => exact if_pos h

theorem decodeBlocks_spec (hsize : 0 < size) {blocks : List Block} {fuel : Nat}
    (h : ∀ b ∈ blocks, b.WellFormed num size) (hfull : ∀ b ∈ blocks.dropLast, b.spare = [])
    (hdata : data.drop s.off = blocks.flatMap Block.bytes ++ rest) (hfuel : s.remaining ≤ fuel)
    (henough : s.remaining ≤ (blocks.flatMap Block.slots).length) :
    ∃ s' off, decodeBlocks data num size fuel s = .ok s' ∧
      s.Reads (blocks.flatMap Block.slots) off s' := by
  induction blocks generalizing s fuel with
  | nil =>
    have hzero : s.remaining = 0 := Nat.le_zero.mp henough
    exact ⟨s, 0, decodeBlocks_done hzero, .done hzero _ _⟩
  | cons b blocks ih =>
    by_cases hzero : s.remaining = 0
    · exact ⟨s, 0, decodeBlocks_done hzero, .done hzero _ _⟩
    obtain ⟨hb, hblocks⟩ := forall_mem_cons.mp h
    have hpos : size ≤ b.slots.length := by
      rw [length_blockSlots hb]
      exact Nat.le_mul_of_pos_left _ (length_pos_iff.mpr hb.stored)
    rw [flatMap_cons, length_append] at henough
    rw [flatMap_cons, append_assoc] at hdata
    obtain ⟨hlast, hfull'⟩ := full_blocks hfull
    have hspare : b.spare = [] ∨ s.remaining ≤ b.slots.length :=
      hlast.symm.imp_right fun hlast => by simpa [hlast] using henough
    obtain ⟨fuel, rfl⟩ : ∃ n, fuel = n + 1 := ⟨fuel - 1, by omega⟩
    obtain ⟨s₁, hstep, hreads⟩ := decodeBlock_spec hsize hb hdata hspare
    have hremaining := hreads.remaining
    rw [decodeBlocks, if_neg hzero, hstep, flatMap_cons]
    by_cases hdone : s₁.remaining = 0
    · exact ⟨s₁, 0, decodeBlocks_done hdone, hreads.trans (.done hdone _ _)⟩
    · have hdata₁ : data.drop s₁.off = blocks.flatMap Block.bytes ++ rest := by
        rw [hreads.off hdone]
        exact drop_past hdata
      obtain ⟨s', off, hrun, hreads'⟩ := @ih s₁ fuel hblocks hfull' hdata₁ (by omega) (by omega)
      exact ⟨s', off, hrun, hreads.trans hreads'⟩

end Blocks

theorem Encoding.drop_bytes (e : Encoding) (rest : List UInt8) :
    (e.bytes ++ rest).drop 0 = uvarint e.blockSize ++ (uvarint e.numMiniblocks ++
      (uvarint e.values.length ++ (uvarint (zigzag (e.values.headD 0)) ++
        (e.blocks.flatMap Block.bytes ++ rest)))) := by
  simp only [drop_zero, Encoding.bytes, append_assoc]

variable {e : Encoding}

section

variable (h : e.WellFormed)

include h

theorem readDeltaHeader_bytes (rest : List UInt8) : ∃ off, readDeltaHeader (e.bytes ++ rest) =
        .ok ⟨e.blockSize, e.numMiniblocks, e.values.length, e.values.headD 0, off⟩ ∧
      (e.bytes ++ rest).drop off = e.blocks.flatMap Block.bytes ++ rest := by
  have hnum : e.numMiniblocks < 2 ^ 64 := Nat.lt_of_le_of_lt (Nat.le_of_dvd h.pos h.divides) h.varint
  have hcount := h.count
  have h0 := e.drop_bytes rest
  have h1 := drop_past h0
  have h2 := drop_past h1
  have h3 := drop_past h2
  refine ⟨_, ?_, drop_past h3⟩
  unfold readDeltaHeader
  rw [readVarint_uvarint h0 h.varint, Except.mapError]
  simp only [bind, Except.bind]
  rw [readVarint_uvarint h1 hnum, Except.mapError]
  simp only
  rw [readVarint_uvarint h2 (by omega), Except.mapError]
  simp only
  rw [readZigzag_zigzag h3]
  rfl

theorem Encoding.WellFormed.miniblockSize_pos : 0 < e.numMiniblocks ∧ 0 < e.miniblockSize := by
  have hnum : 0 < e.numMiniblocks := Nat.pos_of_dvd_of_pos h.divides h.pos
  exact ⟨hnum, Nat.div_pos (Nat.le_of_dvd h.pos h.divides) hnum⟩

-- The first `n` values, each with its deltas as the unpacker reads them.
theorem decodeDeltaBinaryPacked_bytes (rest : List UInt8) {n : Nat} (hpos : 0 < n)
    (hn : n ≤ e.values.length) (hblock : e.blockSize ≤ 2 ^ 20) (hpage : e.values.length ≤ maxPageValues) :
    decodeDeltaBinaryPacked (e.bytes ++ rest) n = .ok (e.values.headD 0 ::
      follow (e.values.headD 0) ((e.slots.take (n - 1)).map Slot.read)) := by
  obtain ⟨off, hheader, hdata⟩ := readDeltaHeader_bytes h rest
  obtain ⟨hnum, hsize⟩ := h.miniblockSize_pos
  have hnumle := Nat.le_of_dvd h.pos h.divides
  have hcount := h.count
  have henough := h.enough
  have hmini : miniblockSizeOf e.blockSize e.numMiniblocks = e.miniblockSize :=
    if_neg (Nat.ne_of_gt hsize)
  obtain ⟨s, _, hrun, hreads⟩ := decodeBlocks_spec (s := ⟨off, n - 1, [e.values.headD 0]⟩) hsize
    h.blocks h.full hdata (Nat.le_refl _) (show n - 1 ≤ e.slots.length by omega)
  unfold decodeDeltaBinaryPacked
  rw [if_neg (by omega), hheader]
  dsimp only
  rw [if_neg (by omega), if_neg (by omega), if_neg (by omega), hmini, Int.toNat_natCast,
    Nat.min_eq_right hn, hrun]
  have hresult : s.result = e.values.headD 0 ::
      follow (e.values.headD 0) ((e.slots.take (n - 1)).map Slot.read) := hreads.result
  refine congrArg Except.ok ?_
  dsimp only
  rw [hresult]
  refine take_of_length_le ?_
  rw [length_cons, length_follow, length_map, length_take]
  omega

theorem Encoding.WellFormed.delta_lt {s : Slot} (hs : s ∈ e.slots) : s.delta < 2 ^ 64 := by
  obtain ⟨b, hb, hs⟩ := mem_flatMap.mp hs
  obtain ⟨m, hm, hs⟩ := mem_flatMap.mp hs
  have hwf := (h.blocks b hb).minis m hm
  exact Nat.lt_of_lt_of_le (hwf.deltas _ (mem_slots hs).2.2) (Nat.pow_le_pow_right (by decide) hwf.width)

theorem decodeDeltaBinaryPacked_limits {rest : List UInt8} {n : Int} {values : List (BitVec 64)}
    (hlow : -2 ^ 63 ≤ n) (hhigh : n < 2 ^ 63) (hn : n ≠ 0)
    (hdecode : decodeDeltaBinaryPacked (e.bytes ++ rest) n = .ok values) :
    e.blockSize ≤ 2 ^ 20 ∧ e.values.length ≤ maxPageValues ∧ 0 < n ∧ n ≤ e.values.length := by
  obtain ⟨off, hheader, -⟩ := readDeltaHeader_bytes h rest
  have hcount := h.count
  unfold decodeDeltaBinaryPacked at hdecode
  rw [if_neg hn, hheader] at hdecode
  dsimp only at hdecode
  split_ifs at hdecode with hfew hnone hlimit
  omega

end

-- Every packed delta that a value needs reads back as the sign-extended word of four bytes.
theorem delta_exact (e : Encoding) (h : e.WellFormed) :
    decodeDeltaBinaryPacked e.bytes e.values.length = .ok e.values ↔
      e.values = [] ∨ e.blockSize ≤ 2 ^ 20 ∧ e.values.length ≤ maxPageValues ∧
        ∀ s ∈ e.slots.take (e.values.length - 1), s.Fits := by
  by_cases hne : e.values = []
  · rw [hne]
    exact iff_of_true rfl (.inl rfl)
  rw [or_iff_right hne]
  have hexact : e.blockSize ≤ 2 ^ 20 → e.values.length ≤ maxPageValues →
      (decodeDeltaBinaryPacked e.bytes e.values.length = .ok e.values ↔
        ∀ s ∈ e.slots.take (e.values.length - 1), s.Fits) := by
    intro hblock hpage
    have hvalues : e.values = e.values.headD 0 :: e.values.tail := by
      cases hv : e.values with
      | nil => exact (hne hv).elim
      | cons v values => rfl
    have hcons : ∀ rest, e.values.headD 0 :: rest = e.values ↔ rest = e.values.tail := by
      intro rest
      refine ⟨fun heq => congrArg tail heq, ?_⟩
      rintro rfl
      exact hvalues.symm
    have hdecode := decodeDeltaBinaryPacked_bytes h [] (length_pos_iff.mpr hne) (Nat.le_refl _) hblock hpage
    rw [append_nil] at hdecode
    rw [hdecode, Except.ok.injEq, hcons, h.follows, follow_inj,
      map_inj_left]
    refine forall₂_congr fun s hs => ?_
    exact Slot.read_eq_step_iff (h.delta_lt (mem_of_mem_take hs))
  constructor
  · intro hdecode
    have hcount := h.count
    have hlength := length_pos_iff.mpr hne
    rw [← append_nil e.bytes] at hdecode
    obtain ⟨hblock, hpage, -⟩ :=
      decodeDeltaBinaryPacked_limits h (by omega) (by omega) (by omega) hdecode
    rw [append_nil] at hdecode
    exact ⟨hblock, hpage, (hexact hblock hpage).mp hdecode⟩
  · rintro ⟨hblock, hpage, hfit⟩
    exact (hexact hblock hpage).mpr hfit

-- One miniblock of four; the first delta is given, the others are zero.
def pairEncoding (first second minDelta : BitVec 64) (width delta : Nat) : Encoding where
  blockSize := 128
  numMiniblocks := 4
  values := [first, second]
  blocks := [⟨minDelta, [⟨width, delta :: replicate 31 0⟩], [0, 0, 0]⟩]

theorem pairEncoding_wellFormed {first second minDelta : BitVec 64} {width delta : Nat} (hwidth : width ≤ 64)
    (hdelta : delta < 2 ^ width) (hsecond : second = first + (minDelta + BitVec.ofNat 64 delta)) :
    (pairEncoding first second minDelta width delta).WellFormed := by
  have hslots : (pairEncoding first second minDelta width delta).slots.length = 32 := rfl
  have hsize : (pairEncoding first second minDelta width delta).miniblockSize = 32 :=
    show 128 / 4 = 32 by decide
  refine ⟨Nat.succ_pos _, ⟨1, rfl⟩, show 128 < 2 ^ 64 by decide, ⟨32, rfl⟩, by rw [hsize],
    show 2 < 2 ^ 63 by decide, fun b hb => ?_, nofun, by rw [hslots]; exact (by decide : 1 ≤ 32),
    by rw [hslots, hsize]; exact (by decide : 32 < 1 + 32), congrArg (fun v => [v]) hsecond⟩
  obtain rfl := mem_singleton.mp hb
  refine ⟨cons_ne_nil _ _, rfl, fun m hm => ?_⟩
  obtain rfl := mem_singleton.mp hm
  refine ⟨hwidth, hsize.symm, fun d hd => ?_⟩
  obtain rfl | hd := mem_cons.mp hd
  · exact hdelta
  · rw [eq_of_mem_replicate hd]
    exact Nat.two_pow_pos width

theorem delta_exact_pair :
    decodeDeltaBinaryPacked (pairEncoding 5 7 (-1) 2 3).bytes 2 = .ok [5, 7] :=
  (delta_exact (pairEncoding 5 7 (-1) 2 3)
    (pairEncoding_wellFormed (by decide) (by decide) (by decide))).mpr (.inr (by decide))

-- A delta of 32 bits whose top bit is set is added as a negative one.
theorem delta_reads_sign :
    (pairEncoding 0 0x80000000 0 32 0x80000000).WellFormed ∧
      decodeDeltaBinaryPacked (pairEncoding 0 0x80000000 0 32 0x80000000).bytes 2 ≠ .ok [0, 0x80000000] := by
  have hwf : (pairEncoding 0 0x80000000 0 32 0x80000000).WellFormed :=
    pairEncoding_wellFormed (by decide) (by decide) (by decide)
  refine ⟨hwf, fun hdecode => ?_⟩
  have hread := decodeDeltaBinaryPacked_bytes hwf [] (show 0 < 2 by decide) (by decide) (by decide)
    (by decide)
  rw [append_nil] at hread
  exact absurd (Except.ok.inj (hread.symm.trans hdecode)) (by decide)

end Wadjet.Storage.Parquet
