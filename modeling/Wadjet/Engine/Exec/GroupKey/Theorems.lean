import Wadjet.Engine.Exec.GroupKey.Compare

namespace Wadjet.Engine.Exec

open Wadjet.Data Wadjet.Engine.Batch List

section Codes

variable {V : Type} {alike : Bool → V → V → Prop} {append : V → List UInt8} {same : V → V → Prop}

def AlikeList (alike : Bool → V → V → Prop) (last : Bool) (l l' : List (Option V)) : Prop :=
  SameCut 4 l.length l'.length ∧
    AlikeAll (fun last o o' => ∀ v ∈ o, ∀ v' ∈ o', alike last v v') last l l'

theorem tells_listKey (h : Tells alike append same) :
    Tells (AlikeList alike) (appendListKey append) (List.Forall₂ (Option.Rel same)) :=
  (h.flagged (by decide : (1 : UInt8) ≠ 0)).counted fun _ _ => SameCut.header

-- The length of the last value is that of what is left of the key.
def AlikeBytes (last : Bool) (data data' : List UInt8) : Prop :=
  last ∨ SameCut 2 data.length data'.length

theorem tells_bytesKey : Tells AlikeBytes appendBytesKey Eq := by
  refine ⟨fun last data data' halike rest rest' hlast heq => ?_, fun _ _ => congrArg appendBytesKey⟩
  rw [appendBytesKey, appendBytesKey, append_assoc, append_assoc] at heq
  rcases halike with hend | hcut
  · obtain ⟨rfl, rfl⟩ := hlast hend
    rw [append_nil, append_nil] at heq
    obtain ⟨-, hdata⟩ := append_inj heq (by rw [length_littleEndian, length_littleEndian])
    exact ⟨hdata, rfl⟩
  · obtain ⟨hlength, heq⟩ := hcut.header _ _ heq
    exact append_inj heq hlength

theorem codes_boolKey : Codes (fun b => [boolByte b]) Eq :=
  .of_length (fun _ => rfl) (by decide)

end Codes

def KeyFields.isNil : KeyFields → Bool
  | .nil => true
  | .cons _ _ => false

variable (cidrOrderKey : List UInt8 → List UInt8)

-- No length of one row is taken for another of the other: byte strings in the same
-- place, unless it is the last one, and lists.
mutual

def AlikeLeaf : (t : LeafType) → Bool → t.Value → t.Value → Prop
  | .bool, _, _, _ | .int64, _, _, _ | .int32, _, _, _ | .float64, _, _, _ | .float32, _, _, _
  | .decimal, _, _, _ => True
  | .bytes, last, data, data' => AlikeBytes last data data'
  | .cidr, last, text, text' => AlikeBytes last (cidrOrderKey text) (cidrOrderKey text')
  | .map entry, last, l, l' => AlikeList (Alike entry) last l l'
  | .row fields, last, vs, vs' => AlikeFields fields last vs vs'

def Alike : (t : KeyType) → Bool → t.Value → t.Value → Prop
  | .leaf t, last, v, v' => AlikeLeaf t last v v'
  | .array elem, last, l, l' => AlikeList (Alike elem) last l l'

def AlikeFields : (fields : KeyFields) → Bool → fields.Values → fields.Values → Prop
  | .nil, _, _, _ => True
  | .cons t rest, last, vs, vs' =>
    (∀ v ∈ vs.1, ∀ v' ∈ vs'.1, Alike t (last && rest.isNil) v v') ∧ AlikeFields rest last vs.2 vs'.2

end

variable {cidrOrderKey}

theorem sameColumns_iff : (columns : KeyFields) → (r r' : columns.Values) →
    (compareFields cidrOrderKey columns r r' = 0 ↔ SameColumns cidrOrderKey columns r r')
  | .nil, _, _ => iff_of_true rfl trivial
  | .cons t rest, r, r' => by
      refine thenBy_eq_zero_iff.trans (and_congr compareElem_eq_zero_iff ?_)
      exact sameColumns_iff rest r.2 r'.2

-- The codes are read off the front, and tell apart what the comparator does.
mutual

theorem tells_leaf : (t : LeafType) → Tells (AlikeLeaf cidrOrderKey t)
    (appendLeafValue cidrOrderKey t) (fun a b => compareLeaf cidrOrderKey t a b = 0)
  | .bool => codes_boolKey.iff compareBool_eq_zero_iff
  | .int64 => (codes_word (by decide)).iff compareWord_eq_zero_iff
  | .int32 => (codes_word (by decide)).iff compareWord_eq_zero_iff
  | .float64 => ((codes_word (by decide)).comap FloatKey.bits).iff
      (FloatKey.compare_eq_zero_iff.trans FloatKey.ext_iff)
  | .float32 => ((codes_word (by decide)).comap FloatKey.bits).iff
      (FloatKey.compare_eq_zero_iff.trans FloatKey.ext_iff)
  | .bytes => tells_bytesKey.iff compareBytes_eq_zero_iff
  | .cidr => (tells_bytesKey.comap cidrOrderKey).iff compareBytes_eq_zero_iff
  | .decimal => (tells_decimalKey.comap fun d : Int128 × Fin 39 => (d.1, d.2.val)).mono
      fun _ d d' _ => ⟨d.2.isLt.trans (by decide), d'.2.isLt.trans (by decide)⟩
  | .map entry => (tells_listKey (tells_column entry)).iff
      (compareSeq_eq_zero_iff.trans (by simp only [compareElem_eq_zero_iff]))
  | .row fields => (tells_fields fields).after _

theorem tells_column : (t : KeyType) → Tells (Alike cidrOrderKey t)
    (appendColumnValue cidrOrderKey t) (fun a b => compareValues cidrOrderKey t a b = 0)
  | .leaf t => tells_leaf t
  | .array elem => (tells_listKey (tells_column elem)).iff (compareArray_eq_zero_iff elem _ _)

theorem tells_fields : (fields : KeyFields) → Tells (AlikeFields cidrOrderKey fields)
    (appendFields cidrOrderKey fields) (fun a b => compareFields cidrOrderKey fields a b = 0)
  | .nil => ⟨fun _ _ _ _ _ _ _ heq => ⟨rfl, heq⟩, fun _ _ _ => rfl⟩
  | .cons t rest => (((tells_column t).flagged (by decide : (1 : UInt8) ≠ 0)).append (tells_fields rest)
      (fun hnil c => by cases rest with
        | nil => rfl
        | cons => cases hnil)).iff
      (thenBy_eq_zero_iff.trans (and_congr_left' compareElem_eq_zero_iff))

end

theorem tells_key (columns : KeyFields) {r r' : columns.Values}
    (halike : AlikeFields cidrOrderKey columns true r r')
    (h : serializeKey cidrOrderKey columns r = serializeKey cidrOrderKey columns r') :
    SameColumns cidrOrderKey columns r r' := by
  rw [← append_nil (serializeKey cidrOrderKey columns r),
    ← append_nil (serializeKey cidrOrderKey columns r')] at h
  exact (sameColumns_iff columns r r').mp
    ((tells_fields columns).tells true r r' halike [] [] (fun _ => ⟨rfl, rfl⟩) h).1

theorem key_congr (columns : KeyFields) {r r' : columns.Values}
    (h : SameColumns cidrOrderKey columns r r') :
    serializeKey cidrOrderKey columns r = serializeKey cidrOrderKey columns r' :=
  (tells_fields columns).congr r r' ((sameColumns_iff columns r r').mpr h)

def bytesColumns : KeyFields :=
  .cons (.leaf .bytes) (.cons (.leaf .bytes) .nil)

theorem serializeKey_bytes (a b : List UInt8) :
    serializeKey cidrOrderKey bytesColumns (some a, some b, ()) =
      0 :: (littleEndian 2 a.length ++ a) ++ (0 :: (littleEndian 2 b.length ++ b) ++ []) :=
  rfl

-- Zeros before the empty string, and fewer before those that are missing.
theorem serializeKey_zeros {m k : Nat} (hcut : (m + k) % 256 ^ 2 = m % 256 ^ 2) :
    serializeKey cidrOrderKey bytesColumns (some (replicate (m + k) 0), some [], ()) =
      serializeKey cidrOrderKey bytesColumns (some (replicate m 0), some (replicate k 0), ()) := by
  have hlength : littleEndian 2 (m + k) = littleEndian 2 m := littleEndian_eq_iff.mpr hcut
  have hzero : littleEndian 2 k = littleEndian 2 0 := littleEndian_eq_iff.mpr (by omega)
  have hword : littleEndian 2 0 = replicate 2 (0 : UInt8) := rfl
  rw [serializeKey_bytes, serializeKey_bytes, length_replicate, length_replicate, length_replicate,
    length_nil, hlength, hzero, hword]
  simp only [cons_append, append_assoc, append_nil, ← replicate_succ, replicate_append_replicate]
  congr 3
  omega

theorem not_sameColumns_zeros {m k : Nat} (hk : k ≠ 0) :
    ¬ SameColumns cidrOrderKey bytesColumns (some (replicate (m + k) 0), some [], ())
      (some (replicate m 0), some (replicate k 0), ()) := by
  rintro ⟨h | -, -⟩
  have hlength := congrArg length (compareBytes_eq_zero_iff.mp h)
  rw [length_replicate, length_replicate] at hlength
  omega

-- Equal rows have equal keys, and where no length is taken for another equal keys are
-- of equal rows. In the first of two BYTES columns these are exactly the lengths to avoid.
theorem group_key_eq (cidrOrderKey : List UInt8 → List UInt8) :
    (∀ (columns : KeyFields) (r r' : columns.Values),
      (SameColumns cidrOrderKey columns r r' →
        serializeKey cidrOrderKey columns r = serializeKey cidrOrderKey columns r') ∧
      (AlikeFields cidrOrderKey columns true r r' →
        serializeKey cidrOrderKey columns r = serializeKey cidrOrderKey columns r' →
          SameColumns cidrOrderKey columns r r')) ∧
    ∀ m n : Nat, SameCut 2 (m + n) m ↔ ∀ a a' b b' : List UInt8, a.length = m + n → a'.length = m →
      serializeKey cidrOrderKey bytesColumns (some a, some b, ()) =
          serializeKey cidrOrderKey bytesColumns (some a', some b', ()) →
        SameColumns cidrOrderKey bytesColumns (some a, some b, ()) (some a', some b', ()) := by
  refine ⟨fun columns r r' => ⟨key_congr columns, tells_key columns⟩, fun m n => ⟨?_, ?_⟩⟩
  · intro hcut a a' b b' ha ha' heq
    refine tells_key bytesColumns ⟨?_, ?_, trivial⟩ heq
    · rintro v hv v' hv'
      obtain rfl := Option.some.inj hv
      obtain rfl := Option.some.inj hv'
      exact .inr (by rwa [ha, ha'])
    · exact fun _ _ _ _ => .inl rfl
  · intro htells hcut
    by_contra hne
    exact not_sameColumns_zeros (by omega) (htells _ _ _ _ length_replicate length_replicate
      (serializeKey_zeros hcut))

def priceColumns : KeyFields :=
  .cons (.leaf .bytes) (.cons (.leaf .decimal) .nil)

-- The same text before 1.0 and before 1.00.
theorem group_key_eq_pair :
    SameColumns id priceColumns (some [1], some (int128From 10, 1), ())
      (some [1], some (int128From 100, 2), ()) := by
  refine ((group_key_eq id).1 priceColumns _ _).2 ⟨?_, ?_, trivial⟩ (by decide +kernel)
  · rintro v hv v' hv'
    obtain rfl := Option.some.inj hv
    obtain rfl := Option.some.inj hv'
    exact .inr fun _ => rfl
  · exact fun _ _ _ _ => trivial

-- A string of 2^16 zeros before the empty one, and after it.
theorem cut_length_collides :
    serializeKey id bytesColumns (some (replicate (2 ^ 16) 0), some [], ()) =
        serializeKey id bytesColumns (some [], some (replicate (2 ^ 16) 0), ()) ∧
      ¬ SameColumns id bytesColumns (some (replicate (2 ^ 16) 0), some [], ())
        (some [], some (replicate (2 ^ 16) 0), ()) := by
  have hkey := @serializeKey_zeros id 0 (2 ^ 16) (by decide)
  have hrows := @not_sameColumns_zeros id 0 (2 ^ 16) (by decide)
  rw [Nat.zero_add, replicate_zero] at hkey hrows
  exact ⟨hkey, hrows⟩

end Wadjet.Engine.Exec
