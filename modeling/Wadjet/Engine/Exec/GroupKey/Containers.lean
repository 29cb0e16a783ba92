import Wadjet.Engine.Batch.DecimalText

namespace Wadjet.Engine.Exec

open Wadjet.Data Wadjet.Engine.Batch List Option

-- What a container holds, by the box of its elements: DATE, IPV4, MAC and UUID come as
-- strings. A MAP is the list of its entries, and the fields of a ROW stand in the order
-- of their names.
mutual

inductive ElemType where
  | bool
  | int32
  | int64
  | string
  | bytes
  | cidr
  | decimal
  | list (elem : ElemType)
  | row (fields : ElemFields)

inductive ElemFields where
  | nil
  | cons (name : List UInt8) (t : ElemType) (rest : ElemFields)

end

mutual

def ElemType.Value : ElemType → Type
  | .bool => Bool
  | .int32 => BitVec 32
  | .int64 => BitVec 64
  | .string | .bytes | .cidr => List UInt8
  | .decimal => Int128 × Fin 39
  | .list elem => List (Option elem.Value)
  | .row fields => fields.Values

def ElemFields.Values : ElemFields → Type
  | .nil => Unit
  | .cons _ t rest => Option t.Value × rest.Values

end

def ElemFields.length : ElemFields → Nat
  | .nil => 0
  | .cons _ _ rest => rest.length + 1

def appendKeyRaw (s : List UInt8) : List UInt8 :=
  uvarint s.length ++ s

def appendKeyElems {V : Type} (append : V → List UInt8) (l : List (Option V)) : List UInt8 :=
  uvarint l.length ++ l.flatMap (optional [0] append)

def boolTag (b : Bool) : UInt8 :=
  if b then 2 else 1

-- A decimal is boxed as its text, at a scale of its own.
def decimalText (d : Int128 × Fin 39) : List UInt8 :=
  formatDecimal d.1 d.2.val

section Elements

variable (cidrOrderKey : List UInt8 → List UInt8)

mutual

def appendKeyElem : (t : ElemType) → t.Value → List UInt8
  | .bool, b => [boolTag b]
  | .int32, v => 3 :: littleEndian 4 v.toNat
  | .int64, v => 4 :: littleEndian 8 v.toNat
  | .string, s => 7 :: appendKeyRaw s
  | .bytes, s => 8 :: appendKeyRaw s
  | .cidr, s => 7 :: appendKeyRaw (cidrOrderKey s)
  | .decimal, d => 7 :: appendKeyRaw ((canonicalDecimalText (decimalText d)).getD (decimalText d))
  | .list elem, l => 9 :: appendKeyElems (appendKeyElem elem) l
  | .row fields, vs => 10 :: (uvarint fields.length ++ appendKeyFields fields vs)

def appendKeyFields : (fields : ElemFields) → fields.Values → List UInt8
  | .nil, _ => []
  | .cons name t rest, vs =>
    appendKeyRaw name ++ (optional [0] (appendKeyElem t) vs.1 ++ appendKeyFields rest vs.2)

end

def SameDecimal (d d' : Int128 × Fin 39) : Prop :=
  d.1.signed * 10 ^ d'.2.val = d'.1.signed * 10 ^ d.2.val

mutual

def SameElem : (t : ElemType) → t.Value → t.Value → Prop
  | .bool, a, b | .int32, a, b | .int64, a, b | .string, a, b | .bytes, a, b => a = b
  | .cidr, a, b => cidrOrderKey a = cidrOrderKey b
  | .decimal, a, b => SameDecimal a b
  | .list elem, a, b => List.Forall₂ (Option.Rel (SameElem elem)) a b
  | .row fields, a, b => SameElems fields a b

def SameElems : (fields : ElemFields) → fields.Values → fields.Values → Prop
  | .nil, _, _ => True
  | .cons _ t rest, a, b => Option.Rel (SameElem t) a.1 b.1 ∧ SameElems rest a.2 b.2

end

end Elements

theorem codes_keyRaw : Codes appendKeyRaw Eq :=
  codes_uvarint.raw

section Lists

variable {V : Type} {append : V → List UInt8} {same : V → V → Prop}

-- Every element has a tag that is not the one of NULL.
def Tagged (append : V → List UInt8) : Prop :=
  ∀ a, ∃ tag rest, append a = tag :: rest ∧ tag ≠ 0

variable (h : Codes append same) (htag : Tagged append)

include h htag

theorem codes_elem : Codes (optional [0] append) (Option.Rel same) := by
  refine h.optional ?_
  intro a rest rest' heq
  obtain ⟨tag, tail, happend, hne⟩ := htag a
  rw [happend] at heq
  exact hne (cons.inj heq).1.symm

theorem codes_elems : Codes (appendKeyElems append) (List.Forall₂ (Option.Rel same)) :=
  codes_uvarint.counted (codes_elem h htag)

end Lists

theorem canonicalDecimalText_isSome (d : Int128 × Fin 39) :
    (canonicalDecimalText (decimalText d)).isSome := by
  rw [decimalText, formatDecimal_eq, canonicalDecimalText_plain]
  rfl

theorem canonical_eq_iff {d d' : Int128 × Fin 39} :
    (canonicalDecimalText (decimalText d)).getD (decimalText d) =
      (canonicalDecimalText (decimalText d')).getD (decimalText d') ↔ SameDecimal d d' := by
  have hiff := @canonicalDecimalText_eq_iff d'.2.val d.1 d'.1 d.2.val
  obtain ⟨c, hc⟩ := isSome_iff_exists.mp (canonicalDecimalText_isSome d)
  obtain ⟨c', hc'⟩ := isSome_iff_exists.mp (canonicalDecimalText_isSome d')
  rw [SameDecimal, ← hiff]
  unfold decimalText at *
  rw [hc, hc', getD_some, getD_some, some.injEq]

variable {cidrOrderKey : List UInt8 → List UInt8}

theorem tagged_elem : (t : ElemType) → Tagged (appendKeyElem cidrOrderKey t)
  | .bool => fun b => ⟨boolTag b, [], rfl, by cases b <;> decide⟩
  | .int32 | .int64 | .string | .bytes | .cidr | .decimal | .list _ | .row _ =>
    fun _ => ⟨_, _, rfl, by decide⟩

mutual

theorem codes_keyElem : (t : ElemType) → Codes (appendKeyElem cidrOrderKey t) (SameElem cidrOrderKey t)
  | .bool => .of_length (fun _ => rfl) (by
      change ∀ a b : Bool, [boolTag a] = [boolTag b] ↔ a = b
      decide)
  | .int32 => (codes_word (by decide)).after [3]
  | .int64 => (codes_word (by decide)).after [4]
  | .string => codes_keyRaw.after [7]
  | .bytes => codes_keyRaw.after [8]
  | .cidr => (codes_keyRaw.comap cidrOrderKey).after [7]
  | .decimal => ((codes_keyRaw.comap fun d : Int128 × Fin 39 =>
      (canonicalDecimalText (decimalText d)).getD (decimalText d)).iff canonical_eq_iff.symm).after [7]
  | .list elem => (codes_elems (codes_keyElem elem) (tagged_elem elem)).after [9]
  | .row fields => ((codes_keyFields fields).after (uvarint fields.length)).after [10]

theorem codes_keyFields : (fields : ElemFields) →
    Codes (appendKeyFields cidrOrderKey fields) (SameElems cidrOrderKey fields)
  | .nil => .of_read (fun _ _ _ _ heq => ⟨trivial, heq⟩) fun _ _ _ => rfl
  | .cons name t rest => ((codes_elem (codes_keyElem t) (tagged_elem t)).append
      (codes_keyFields rest)).after (appendKeyRaw name)

end

end Wadjet.Engine.Exec
