import Wadjet.Engine.Batch.DecimalKey

namespace Wadjet.Engine.Exec

open Wadjet.Data Wadjet.Engine.Batch

-- The key types by what they store: INT64 also stands for TIMESTAMP, IPV4, MAC and
-- DURATION, INT32 for PORT, PROTOCOL and DATE, BYTES for STRING, IPV6 and UUID. The
-- elements of a MAP are its entries, as rows of key and value.
mutual

inductive LeafType where
  | bool
  | int64
  | int32
  | float64
  | float32
  | bytes
  | cidr
  | decimal
  | map (entry : KeyType)
  | row (fields : KeyFields)

inductive KeyType where
  | leaf (t : LeafType)
  | array (elem : KeyType)

inductive KeyFields where
  | nil
  | cons (t : KeyType) (rest : KeyFields)

end

-- The bits of a float of w bits, without the negative zero and with one NaN.
@[ext]
structure FloatKey (w inf nan : Nat) where
  bits : BitVec w
  zero : bits.toNat ≠ 2 ^ (w - 1)
  one : inf < bits.toNat % 2 ^ (w - 1) → bits.toNat = nan

abbrev Float64Key := FloatKey 64 0x7FF0000000000000 0x7FF8000000000001

abbrev Float32Key := FloatKey 32 0x7F800000 0x7FC00000

mutual

def LeafType.Value : LeafType → Type
  | .bool => Bool
  | .int64 => BitVec 64
  | .int32 => BitVec 32
  | .float64 => Float64Key
  | .float32 => Float32Key
  | .bytes => List UInt8
  | .cidr => List UInt8
  | .decimal => Int128 × Fin 39
  | .map entry => List (Option entry.Value)
  | .row fields => fields.Values

def KeyType.Value : KeyType → Type
  | .leaf t => t.Value
  | .array elem => List (Option elem.Value)

def KeyFields.Values : KeyFields → Type
  | .nil => Unit
  | .cons t rest => Option t.Value × rest.Values

end

def KeyFields.length : KeyFields → Nat
  | .nil => 0
  | .cons _ rest => rest.length + 1

def appendListKey {V : Type} (append : V → List UInt8) (l : List (Option V)) : List UInt8 :=
  littleEndian 4 l.length ++ l.flatMap (flagged 1 0 append)

-- The length is cut to 16 bits.
def appendBytesKey (data : List UInt8) : List UInt8 :=
  littleEndian 2 data.length ++ data

def boolByte (b : Bool) : UInt8 :=
  if b then 1 else 0

section Encode

variable (cidrOrderKey : List UInt8 → List UInt8)

mutual

def appendLeafValue : (t : LeafType) → t.Value → List UInt8
  | .bool, b => [boolByte b]
  | .int64, v => littleEndian 8 v.toNat
  | .int32, v => littleEndian 4 v.toNat
  | .float64, f => littleEndian 8 f.bits.toNat
  | .float32, f => littleEndian 4 f.bits.toNat
  | .bytes, data => appendBytesKey data
  | .cidr, text => appendBytesKey (cidrOrderKey text)
  | .decimal, d => appendDecimalKey d.1 d.2.val
  | .map entry, l => appendListKey (appendColumnValue entry) l
  | .row fields, vs => littleEndian 4 fields.length ++ appendFields fields vs

def appendColumnValue : (t : KeyType) → t.Value → List UInt8
  | .leaf t, v => appendLeafValue t v
  | .array elem, l => appendListKey (appendColumnValue elem) l

def appendFields : (fields : KeyFields) → fields.Values → List UInt8
  | .nil, _ => []
  | .cons t rest, vs => flagged 1 0 (appendColumnValue t) vs.1 ++ appendFields rest vs.2

end

-- The key of a row is that of the fields of a ROW: a flag, then the value.
def serializeKey (columns : KeyFields) (row : columns.Values) : List UInt8 :=
  appendFields cidrOrderKey columns row

end Encode

def compareLen (m n : Nat) : Int :=
  compareInt m n

def thenBy (first second : Int) : Int :=
  if first ≠ 0 then first else second

def compareElem {V : Type} (compare : V → V → Int) : Option V → Option V → Int
  | none, none => 0
  | none, some _ => 1
  | some _, none => -1
  | some a, some b => compare a b

def comparePrefix {α : Type} (compare : α → α → Int) : List α → List α → Int
  | a :: l, b :: l' => thenBy (compare a b) (comparePrefix compare l l')
  | _, _ => 0

def compareSeq {α : Type} (compare : α → α → Int) (l l' : List α) : Int :=
  thenBy (comparePrefix compare l l') (compareLen l.length l'.length)

def compareBytes : List UInt8 → List UInt8 → Int
  | [], [] => 0
  | [], _ :: _ => -1
  | _ :: _, [] => 1
  | a :: l, b :: l' => if a < b then -1 else if b < a then 1 else compareBytes l l'

def compareBool (a b : Bool) : Int :=
  if a = b then 0 else if a = false then -1 else 1

namespace FloatKey

variable {w inf nan : Nat}

def isNaN (f : FloatKey w inf nan) : Bool :=
  inf < f.bits.toNat % 2 ^ (w - 1)

def rank (f : FloatKey w inf nan) : Int :=
  if 2 ^ (w - 1) ≤ f.bits.toNat then -(f.bits.toNat % 2 ^ (w - 1) : Nat)
  else (f.bits.toNat % 2 ^ (w - 1) : Nat)

def compare (a b : FloatKey w inf nan) : Int :=
  if a.isNaN = false ∧ b.isNaN = false then compareInt a.rank b.rank
  else if a.isNaN ∧ b.isNaN then 0
  else if a.isNaN then 1 else -1

end FloatKey

def KeyType.LeafValue : KeyType → Type
  | .leaf t => t.Value
  | .array elem => elem.LeafValue

def KeyType.leaves : (t : KeyType) → List (Option t.Value) → List (Option t.LeafValue)
  | .leaf _, l => l
  | .array elem, l => l.flatMap fun o => o.elim [] elem.leaves

def KeyType.shape : (t : KeyType) → List (Option t.Value) → List Int
  | .leaf _, l => [(l.length : Int)]
  | .array elem, l => (l.length : Int) :: l.flatMap fun o => o.elim [-1] elem.shape

def compareMultiDim (t : KeyType) (compare : t.LeafValue → t.LeafValue → Int)
    (l l' : List (Option t.Value)) : Int :=
  thenBy (compareSeq (compareElem compare) (t.leaves l) (t.leaves l'))
    (compareSeq compareInt (t.shape l) (t.shape l'))

variable (cidrOrderKey : List UInt8 → List UInt8)

mutual

def compareLeaf : (t : LeafType) → t.Value → t.Value → Int
  | .bool, a, b => compareBool a b
  | .int64, a, b => compareInt a.toInt b.toInt
  | .int32, a, b => compareInt a.toInt b.toInt
  | .float64, a, b => a.compare b
  | .float32, a, b => a.compare b
  | .bytes, a, b => compareBytes a b
  | .cidr, a, b => compareBytes (cidrOrderKey a) (cidrOrderKey b)
  | .decimal, a, b => compareDecimalValues a.1 a.2.val b.1 b.2.val
  | .map entry, a, b => compareSeq (compareElem (compareValues entry)) a b
  | .row fields, a, b => compareFields fields a b

def compareInner : (t : KeyType) → t.LeafValue → t.LeafValue → Int
  | .leaf t, a, b => compareLeaf t a b
  | .array elem, a, b => compareInner elem a b

-- An array of arrays is compared as a multi-dimensional one.
def compareValues : (t : KeyType) → t.Value → t.Value → Int
  | .leaf t, a, b => compareLeaf t a b
  | .array (.leaf t), a, b => compareSeq (compareElem (compareLeaf t)) a b
  | .array (.array elem), a, b => compareMultiDim (.array elem) (compareInner elem) a b

def compareFields : (fields : KeyFields) → fields.Values → fields.Values → Int
  | .nil, _, _ => 0
  | .cons t rest, a, b =>
    thenBy (compareElem (compareValues t) a.1 b.1) (compareFields rest a.2 b.2)

end

def SameColumns : (columns : KeyFields) → columns.Values → columns.Values → Prop
  | .nil, _, _ => True
  | .cons t rest, a, b =>
    Option.Rel (fun x y => compareValues cidrOrderKey t x y = 0) a.1 b.1 ∧
      SameColumns rest a.2 b.2

end Wadjet.Engine.Exec
