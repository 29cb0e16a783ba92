import Wadjet.Engine.Exec.GroupKey.Model

namespace Wadjet.Engine.Exec

open Wadjet.Data List Option

-- The column types whose keys are boxed when a group is put out: INT64 also stands
-- for TIMESTAMP and DURATION, INT32 for PORT and PROTOCOL.
inductive SerType where
  | int64
  | int32
  | string
  | bytes
  | bool
deriving DecidableEq

inductive SerValue where
  | null (t : SerType)
  | int64 (v : BitVec 64)
  | int32 (v : BitVec 32)
  | string (data : List UInt8)
  | bytes (data : List UInt8)
  | bool (b : Bool)
deriving DecidableEq

namespace SerValue

def type : SerValue → SerType
  | null t => t
  | int64 _ => .int64
  | int32 _ => .int32
  | string _ => .string
  | bytes _ => .bytes
  | bool _ => .bool

def isNull : SerValue → Bool
  | null _ => true
  | _ => false

def payload : SerValue → List UInt8
  | null _ => []
  | int64 v => littleEndian 8 v.toNat
  | int32 v => littleEndian 4 v.toNat
  | string data | bytes data => littleEndian 2 data.length ++ data
  | bool b => [boolByte b]

def serialize (v : SerValue) : List UInt8 :=
  if v.isNull then [1] else 0 :: v.payload

end SerValue

def serializeGroupKey (row : List SerValue) : List UInt8 :=
  row.flatMap SerValue.serialize

def cutBytes : List UInt8 → Option (List UInt8 × List UInt8)
  | b0 :: b1 :: rest =>
    let l := ofLittleEndian [b0, b1]
    if rest.length < l then none else some (rest.take l, rest.drop l)
  | _ => none

section Decode

-- The two decoders differ in the integer they read four bytes through.
variable (readInt32 : List UInt8 → BitVec 32)

-- Without enough bytes the slice is out of range.
def decodePayload (key : List UInt8) : SerType → Option (SerValue × List UInt8)
  | .int64 =>
    if key.length < 8 then none
    else some (.int64 (BitVec.ofNat 64 (ofLittleEndian (key.take 8))), key.drop 8)
  | .int32 => if key.length < 4 then none else some (.int32 (readInt32 (key.take 4)), key.drop 4)
  | .string => (cutBytes key).map fun p => (.string p.1, p.2)
  | .bytes => (cutBytes key).map fun p => (.bytes p.1, p.2)
  | .bool =>
    match key with
    | [] => none
    | b :: rest => some (.bool (b == 1), rest)

def decodeKey : List SerType → List UInt8 → Option (List SerValue)
  | [], _ => some []
  | t :: types, [] => (decodeKey types []).map (.null t :: ·)
  | t :: types, flag :: key =>
    if flag = 1 then (decodeKey types key).map (.null t :: ·)
    else (decodePayload readInt32 key t).bind fun p => (decodeKey types p.2).map (p.1 :: ·)

end Decode

def decodeSerializedKey (types : List SerType) (key : List UInt8) : Option (List SerValue) :=
  decodeKey (fun l => BitVec.ofNat 32 (ofLittleEndian l)) types key

-- An INT32 is widened and then stored in its column.
def decodeSerializedKeyIntoColumns (types : List SerType) (key : List UInt8) :
    Option (List SerValue) :=
  decodeKey (fun l => ((BitVec.ofNat 32 (ofLittleEndian l)).signExtend 64).setWidth 32) types key

-- What is left of a key after the value, or none where it has another value there.
-- The byte of a BOOL is read without a test of the length.
def matchPayload (key : List UInt8) : SerValue → Option (Option (List UInt8))
  | .null _ => some (some key)
  | .int64 x =>
    some (if key.length < 8 ∨ BitVec.ofNat 64 (ofLittleEndian (key.take 8)) ≠ x then none
      else some (key.drop 8))
  | .int32 x =>
    some (if key.length < 4 ∨ BitVec.ofNat 32 (ofLittleEndian (key.take 4)) ≠ x then none
      else some (key.drop 4))
  | .string data | .bytes data =>
    some (if key.length < 2 ∨ key.take 2 ≠ littleEndian 2 data.length then none
      else if (key.drop 2).length < data.length ∨ (key.drop 2).take data.length ≠ data then none
      else some ((key.drop 2).drop data.length))
  | .bool b =>
    match key with
    | [] => none
    | k :: rest => some (if k ≠ boolByte b then none else some rest)

def serializedKeyMatchesRow : List UInt8 → List SerValue → Option Bool
  | key, [] => some key.isEmpty
  | [], _ :: _ => some false
  | flag :: key, v :: row =>
    if v.isNull ≠ (flag == 1) then some false
    else
      match matchPayload key v with
      | none => none
      | some none => some false
      | some (some rest) => serializedKeyMatchesRow rest row

-- What the key of a row says of the row and of another row of the same columns.
def KeyLaw (r r' : List SerValue) : Prop :=
  (∀ s ∈ [r, r'],
    decodeSerializedKey (s.map SerValue.type) (serializeGroupKey s) = some s ∧
      decodeSerializedKeyIntoColumns (s.map SerValue.type) (serializeGroupKey s) = some s) ∧
    ∃ b, serializedKeyMatchesRow (serializeGroupKey r) r' = some b ∧ (b ↔ r = r')

def SerValue.Short : SerValue → Prop
  | .string data | .bytes data => data.length < 2 ^ 16
  | _ => True

theorem take_littleEndian (n x : Nat) (rest : List UInt8) :
    (littleEndian n x ++ rest).take n = littleEndian n x := by
  rw [take_append_of_le_length (by rw [length_littleEndian]), take_of_length_le
    (by rw [length_littleEndian])]

theorem drop_littleEndian (n x : Nat) (rest : List UInt8) :
    (littleEndian n x ++ rest).drop n = rest :=
  drop_left' (length_littleEndian n x)

theorem cutBytes_length (data rest : List UInt8) :
    cutBytes (littleEndian 2 data.length ++ data ++ rest) =
      some ((data ++ rest).take (data.length % 2 ^ 16), (data ++ rest).drop (data.length % 2 ^ 16)) := by
  have htwo : littleEndian 2 data.length =
      [UInt8.ofNat data.length, UInt8.ofNat (data.length / 256)] := rfl
  have hvalue : ofLittleEndian [UInt8.ofNat data.length, UInt8.ofNat (data.length / 256)] =
      data.length % 2 ^ 16 := ofLittleEndian_littleEndian 2 data.length
  rw [htwo]
  simp only [cons_append, nil_append, cutBytes, hvalue]
  rw [if_neg]
  rw [length_append]
  omega

theorem signExtend_setWidth (x : BitVec 32) : (x.signExtend 64).setWidth 32 = x := by
  apply BitVec.eq_of_getLsbD_eq
  intro i hi
  rw [BitVec.getLsbD_setWidth, BitVec.getLsbD_signExtend]
  simp [hi, show i < 64 by omega]

def Reads (readInt32 : List UInt8 → BitVec 32) : Prop :=
  ∀ v : BitVec 32, readInt32 (littleEndian 4 v.toNat) = v

theorem reads_direct : Reads fun l => BitVec.ofNat 32 (ofLittleEndian l) :=
  ofNat_ofLittleEndian (by decide)

theorem reads_widened :
    Reads fun l => ((BitVec.ofNat 32 (ofLittleEndian l)).signExtend 64).setWidth 32 := by
  intro v
  dsimp only
  rw [signExtend_setWidth]
  exact reads_direct v

variable {readInt32 : List UInt8 → BitVec 32} {v : SerValue}

theorem decodePayload_short (hread : Reads readInt32)
    (hnull : v.isNull = false) (hshort : v.Short) (rest : List UInt8) :
    decodePayload readInt32 (v.payload ++ rest) v.type = some (v, rest) := by
  have hcut : ∀ data : List UInt8, data.length < 2 ^ 16 →
      cutBytes (littleEndian 2 data.length ++ data ++ rest) = some (data, rest) := by
    intro data hdata
    rw [cutBytes_length, Nat.mod_eq_of_lt hdata, take_left, drop_left]
  cases v with
  | null t => cases hnull
  | int64 v =>
    rw [SerValue.payload, SerValue.type, decodePayload, if_neg, take_littleEndian,
      drop_littleEndian, ofNat_ofLittleEndian (by decide)]
    rw [length_append, length_littleEndian]
    omega
  | int32 v =>
    rw [SerValue.payload, SerValue.type, decodePayload, if_neg, take_littleEndian,
      drop_littleEndian, hread]
    rw [length_append, length_littleEndian]
    omega
  | string data => rw [SerValue.payload, SerValue.type, decodePayload, hcut data hshort, map_some]
  | bytes data => rw [SerValue.payload, SerValue.type, decodePayload, hcut data hshort, map_some]
  | bool b => cases b <;> rfl

theorem decodePayload_long (hlong : ¬ v.Short) {rest rest' : List UInt8} :
    decodePayload readInt32 (v.payload ++ rest) v.type ≠ some (v, rest') := by
  have hcut : ∀ (data : List UInt8), ¬ data.length < 2 ^ 16 →
      (data ++ rest).take (data.length % 2 ^ 16) ≠ data := by
    intro data hdata heq
    have hlength := congrArg length heq
    rw [length_take] at hlength
    omega
  cases v with
  | string data =>
    rw [SerValue.payload, SerValue.type, decodePayload, cutBytes_length, map_some]
    intro heq
    simp only [some.injEq, Prod.mk.injEq, SerValue.string.injEq] at heq
    exact hcut data hlong heq.1
  | bytes data =>
    rw [SerValue.payload, SerValue.type, decodePayload, cutBytes_length, map_some]
    intro heq
    simp only [some.injEq, Prod.mk.injEq, SerValue.bytes.injEq] at heq
    exact hcut data hlong heq.1
  | null t => exact absurd trivial hlong
  | int64 v => exact absurd trivial hlong
  | int32 v => exact absurd trivial hlong
  | bool b => exact absurd trivial hlong

theorem decodeKey_iff (hread : Reads readInt32)
    (row : List SerValue) :
    decodeKey readInt32 (row.map SerValue.type) (serializeGroupKey row) = some row ↔
      ∀ v ∈ row, v.Short := by
  induction row with
  | nil => exact iff_of_true rfl nofun
  | cons v row ih =>
    rw [forall_mem_cons, ← ih, serializeGroupKey, flatMap_cons, SerValue.serialize,
      map_cons]
    have hcons : ∀ {o : Option (List SerValue)} {w : SerValue},
        o.map (w :: ·) = some (v :: row) ↔ w = v ∧ o = some row := by
      intro o w
      cases o <;> simp
    cases hnull : v.isNull with
    | true =>
      cases v with
      | null t =>
        rw [if_pos rfl, singleton_append, decodeKey, if_pos rfl, hcons]
        exact and_congr_left fun _ => iff_of_true rfl trivial
      | _ => cases hnull
    | false =>
      rw [if_neg Bool.false_ne_true, cons_append, decodeKey, if_neg (by decide)]
      by_cases hshort : v.Short
      · rw [decodePayload_short hread hnull hshort, bind_some, hcons]
        exact and_congr_left fun _ => iff_of_true rfl hshort
      · refine iff_of_false (fun heq => ?_) fun h => hshort h.1
        obtain ⟨⟨w, rest⟩, hpayload, hrest⟩ := bind_eq_some_iff.mp heq
        obtain ⟨rfl, -⟩ := hcons.mp hrest
        exact decodePayload_long hshort hpayload

theorem matchPayload_bytes {data data' : List UInt8} (hdata : data.length < 2 ^ 16)
    (hdata' : data'.length < 2 ^ 16) (key : List UInt8) :
    matchPayload (littleEndian 2 data.length ++ data ++ key) (.bytes data') =
      some (if data = data' then some key else none) := by
  have hlength := length_littleEndian 2 data.length
  have htake := take_littleEndian 2 data.length (data ++ key)
  have hdrop := drop_littleEndian 2 data.length (data ++ key)
  rw [append_assoc, matchPayload, htake, hdrop]
  by_cases heq : data = data'
  · subst heq
    rw [if_pos rfl, if_neg, if_neg, drop_left]
    · rw [take_left, length_append]
      exact not_or.mpr ⟨by omega, not_not.mpr rfl⟩
    · rw [length_append]
      exact not_or.mpr ⟨by omega, not_not.mpr rfl⟩
  · rw [if_neg heq]
    by_cases hsame : data.length = data'.length
    · rw [hsame, if_neg, if_pos]
      · right
        rw [← hsame, take_left]
        exact heq
      · rw [length_append, length_littleEndian]
        exact not_or.mpr ⟨by omega, not_not.mpr rfl⟩
    · rw [if_pos]
      right
      intro hle
      exact hsame (littleEndian_injective hdata hdata' hle)

theorem matchPayload_eq {w : SerValue} (htype : v.type = w.type) (hv : v.Short) (hw : w.Short)
    (hvnull : v.isNull = false) (hwnull : w.isNull = false) (key : List UInt8) :
    matchPayload (v.payload ++ key) w = some (if v = w then some key else none) := by
  cases v <;> cases w <;> first | (cases hvnull; done) | (cases hwnull; done) | (cases htype; done) | skip
  case int64.int64 x y | int32.int32 x y =>
    rw [SerValue.payload, matchPayload, take_littleEndian, drop_littleEndian,
      ofNat_ofLittleEndian (by decide), length_append, length_littleEndian]
    by_cases heq : x = y <;> simp [heq]
  case string.string | bytes.bytes =>
    have hmatch := matchPayload_bytes hv hw key
    simp only [SerValue.string.injEq, SerValue.bytes.injEq]
    exact hmatch
  case bool.bool b b' => cases b <;> cases b' <;> rfl

theorem eq_null (h : v.isNull) : v = .null v.type := by
  cases v with
  | null t => rfl
  | _ => cases h

theorem matches_cons {w : SerValue} (htype : v.type = w.type) (hv : v.Short) (hw : w.Short)
    (key : List UInt8) (row : List SerValue) :
    serializedKeyMatchesRow (v.serialize ++ key) (w :: row) =
      if v = w then serializedKeyMatchesRow key row else some false := by
  unfold SerValue.serialize
  cases hvnull : v.isNull with
  | true =>
    rw [if_pos rfl, singleton_append, serializedKeyMatchesRow]
    cases hwnull : w.isNull with
    | true =>
      rw [eq_null hvnull, eq_null hwnull, htype, if_pos rfl, if_neg (by decide), matchPayload]
    | false =>
      rw [if_pos (by decide), if_neg]
      rintro rfl
      rw [hvnull] at hwnull
      cases hwnull
  | false =>
    rw [if_neg Bool.false_ne_true, cons_append, serializedKeyMatchesRow]
    cases hwnull : w.isNull with
    | true =>
      rw [if_pos (by decide), if_neg]
      rintro rfl
      rw [hvnull] at hwnull
      cases hwnull
    | false =>
      rw [matchPayload_eq htype hv hw hvnull hwnull]
      by_cases heq : v = w <;> simp [heq]

theorem matches_eq {r r' : List SerValue} (htypes : r.map SerValue.type = r'.map SerValue.type)
    (hr : ∀ v ∈ r, v.Short) (hr' : ∀ v ∈ r', v.Short) :
    serializedKeyMatchesRow (serializeGroupKey r) r' = some (decide (r = r')) := by
  induction r generalizing r' with
  | nil =>
    obtain rfl := map_eq_nil_iff.mp htypes.symm
    rfl
  | cons v r ih =>
    cases r' with
    | nil => cases htypes
    | cons w r' =>
      rw [map_cons, map_cons, cons.injEq] at htypes
      rw [forall_mem_cons] at hr hr'
      rw [serializeGroupKey, flatMap_cons, matches_cons htypes.1 hr.1 hr'.1]
      by_cases heq : v = w
      · rw [if_pos heq]
        refine (ih htypes.2 hr.2 hr'.2).trans ?_
        simp [heq]
      · simp [heq]

-- The keys of two rows of the same columns say what they should exactly when no
-- length is cut to 16 bits.
theorem deferred_key_law_iff (r r' : List SerValue)
    (htypes : r.map SerValue.type = r'.map SerValue.type) :
    KeyLaw r r' ↔ (∀ v ∈ r, v.Short) ∧ ∀ v ∈ r', v.Short := by
  constructor
  · rintro ⟨hdecode, -⟩
    exact ⟨(decodeKey_iff reads_direct r).mp (hdecode r (by simp)).1,
      (decodeKey_iff reads_direct r').mp (hdecode r' (by simp)).1⟩
  · rintro ⟨hr, hr'⟩
    refine ⟨?_, decide (r = r'), matches_eq htypes hr hr', by simp⟩
    rintro s hs
    have hshort : ∀ v ∈ s, v.Short := by
      obtain rfl | rfl : s = r ∨ s = r' := by simpa using hs
      · exact hr
      · exact hr'
    exact ⟨(decodeKey_iff reads_direct s).mpr hshort, (decodeKey_iff reads_widened s).mpr hshort⟩

theorem deferred_key_law_pair :
    KeyLaw [.string [104, 105], .null .int32] [.string [104, 105], .int32 5] := by
  refine (deferred_key_law_iff [.string [104, 105], .null .int32] [.string [104, 105], .int32 5]
    rfl).mpr ⟨?_, ?_⟩ <;> simp [SerValue.Short]

theorem decode_bytes (b : Bool) (data : List UInt8) :
    decodeSerializedKey [.bool, .bytes] (serializeGroupKey [.bool b, .bytes data]) =
      some [.bool b, .bytes (data.take (data.length % 2 ^ 16))] := by
  have hdecode : decodeSerializedKey [.bool, .bytes] (serializeGroupKey [.bool b, .bytes data]) =
      (((cutBytes (littleEndian 2 data.length ++ data ++ [])).map fun p =>
        (SerValue.bytes p.1, p.2)).bind fun p => some [p.1]).map (.bool (boolByte b == 1) :: ·) := rfl
  rw [hdecode, cutBytes_length, map_some, bind_some, append_nil]
  cases b <;> rfl

-- The key of 2^16 bytes is read back as that of none.
theorem long_key_decodes_empty :
    decodeSerializedKey [.bool, .bytes] (serializeGroupKey [.bool true, .bytes (replicate (2 ^ 16) 0)]) =
        some [.bool true, .bytes []] ∧
      ¬ KeyLaw [.bool true, .bytes (replicate (2 ^ 16) 0)] [.bool true, .bytes (replicate (2 ^ 16) 0)] := by
  have hlength : (replicate (2 ^ 16) (0 : UInt8)).length = 2 ^ 16 := length_replicate
  constructor
  · rw [decode_bytes, hlength, Nat.mod_self, take_zero]
  · intro hlaw
    have hshort := (decodeKey_iff reads_direct _).mp (hlaw.1 _ mem_cons_self).1 _
      (mem_cons_of_mem _ mem_cons_self)
    rw [SerValue.Short, hlength] at hshort
    exact lt_irrefl _ hshort

end Wadjet.Engine.Exec
