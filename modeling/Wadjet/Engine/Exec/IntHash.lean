import Mathlib.Data.List.FinRange
import Mathlib.Data.Nat.Log
import Wadjet.Data.Ring

namespace Wadjet.Engine.Exec

open Wadjet.Data Function

structure IntHashEntry where
  key : BitVec 64
  val : Int
deriving DecidableEq

def intHashEmpty : BitVec 64 :=
  -0x7FFFFFFFFFFFFFFF#64

def fibHash (key : BitVec 64) : BitVec 64 :=
  let k := key ^^^ (key >>> 43)
  let k := k ^^^ (k >>> 29)
  let k := k ^^^ (k >>> 17)
  let k := k ^^^ (k >>> 7)
  k * 11400714819323198485#64

-- An array of entries whose length is a power of two, with the count of the
-- insertions that found an empty slot. The flat table is one, and so is each
-- bucket of the two-level table.
structure IntSlots where
  bits : Nat
  entries : Fin (2 ^ bits) → IntHashEntry
  size : Nat

def emptyEntries (bits : Nat) : Fin (2 ^ bits) → IntHashEntry :=
  fun _ => ⟨intHashEmpty, 0⟩

def emptySlots (bits : Nat) : IntSlots :=
  ⟨bits, emptyEntries bits, 0⟩

def newIntHashTable (n : Nat) : IntSlots :=
  emptySlots (max 4 (Nat.clog 2 (n + n / 3)))

namespace IntSlots

section Slots

-- The flat table masks the hash of a key, a bucket masks it shifted.
variable (slotHash : BitVec 64 → BitVec 64)

def slotFor (bits : Nat) (key : BitVec 64) : Fin (2 ^ bits) :=
  ⟨(slotHash key).toNat % 2 ^ bits, Nat.mod_lt _ (Nat.two_pow_pos bits)⟩

-- The probe of every operation. It does not return where no slot on the ring is
-- empty or has the key.
def findSlot {n : Nat} [NeZero n] (entries : Fin n → IntHashEntry) (key : BitVec 64) :
    Nat → Fin n → Option (Fin n)
  | 0, _ => none
  | fuel + 1, i =>
    if (entries i).key = intHashEmpty then some i
    else if (entries i).key = key then some i
    else findSlot entries key fuel (i + 1)

variable (t : IntSlots) (key : BitVec 64)

def find : Option (Fin (2 ^ t.bits)) :=
  findSlot t.entries key (2 ^ t.bits) (slotFor slotHash t.bits key)

def insertAt (i : Fin (2 ^ t.bits)) (key : BitVec 64) (val : Int) : IntSlots :=
  { t with entries := update t.entries i ⟨key, val⟩, size := t.size + 1 }

def firstFree {n : Nat} [NeZero n] (entries : Fin n → IntHashEntry) : Nat → Fin n → Option (Fin n)
  | 0, _ => none
  | fuel + 1, i =>
    if (entries i).key = intHashEmpty then some i else firstFree entries fuel (i + 1)

def placeEntry (bits : Nat) (entries : Fin (2 ^ bits) → IntHashEntry) (e : IntHashEntry) :
    Option (Fin (2 ^ bits) → IntHashEntry) :=
  (firstFree entries (2 ^ bits) (slotFor slotHash bits e.key)).map fun i =>
    update entries i e

def liveEntries : List IntHashEntry :=
  ((List.finRange (2 ^ t.bits)).map t.entries).filter fun e => e.key ≠ intHashEmpty

def forEach : List (BitVec 64 × Int) :=
  t.liveEntries.map fun e => (e.key, e.val)

def grow : Option IntSlots :=
  (t.liveEntries.foldlM (placeEntry slotHash (t.bits + 1)) (emptyEntries (t.bits + 1))).map
    fun entries => ⟨t.bits + 1, entries, t.size⟩

def overloaded : Prop :=
  2 ^ t.bits * 7 < t.size * 10

instance (t : IntSlots) : Decidable t.overloaded :=
  inferInstanceAs (Decidable (2 ^ t.bits * 7 < t.size * 10))

def get : Option (Int × Bool) :=
  (t.find slotHash key).map fun i =>
    if (t.entries i).key = intHashEmpty then (0, false) else ((t.entries i).val, true)

def getOrInsertNoGrow (val : Int) : Option ((Int × Bool) × IntSlots) :=
  (t.find slotHash key).map fun i =>
    if (t.entries i).key = intHashEmpty then ((val, false), t.insertAt i key val)
    else (((t.entries i).val, true), t)

def putNoGrow (val : Int) : Option ((Int × Bool) × IntSlots) :=
  (t.find slotHash key).map fun i =>
    if (t.entries i).key = intHashEmpty then ((0, false), t.insertAt i key val)
    else (((t.entries i).val, true),
      { t with entries := update t.entries i { t.entries i with val := val } })

def shiftBack (bits : Nat) (entries : Fin (2 ^ bits) → IntHashEntry) :
    Nat → Fin (2 ^ bits) → Fin (2 ^ bits) → (Fin (2 ^ bits) → IntHashEntry)
  | 0, hole, _ =>
    update entries hole { entries hole with key := intHashEmpty }
  | fuel + 1, hole, j =>
    let e := entries (j + 1)
    if e.key = intHashEmpty then
      update entries hole { entries hole with key := intHashEmpty }
    else if gap (slotFor slotHash bits e.key) (j + 1) < gap hole (j + 1) then
      shiftBack bits entries fuel hole (j + 1)
    else shiftBack bits (update entries hole e) fuel (j + 1) (j + 1)

def delete : (Int × Bool) × IntSlots :=
  match t.find slotHash key with
  | none => ((0, false), t)
  | some i =>
    if (t.entries i).key = intHashEmpty then ((0, false), t)
    else (((t.entries i).val, true),
      { t with
        entries := shiftBack slotHash t.bits t.entries (2 ^ t.bits) i i
        size := t.size - 1 })

end Slots

def checkGrow (t : IntSlots) : Option IntSlots :=
  if t.overloaded then t.grow fibHash else some t

def growAfter (r : (Int × Bool) × IntSlots) : Option ((Int × Bool) × IntSlots) :=
  if r.1.2 then some r else r.2.checkGrow.map fun t => (r.1, t)

def put (t : IntSlots) (key : BitVec 64) (val : Int) : Option ((Int × Bool) × IntSlots) :=
  (t.putNoGrow fibHash key val).bind growAfter

def getOrInsert (t : IntSlots) (key : BitVec 64) (val : Int) : Option ((Int × Bool) × IntSlots) :=
  (t.getOrInsertNoGrow fibHash key val).bind growAfter

end IntSlots

def twoLevelBuckets : Nat :=
  256

def twoLevelSlotShift : Nat :=
  8

def twoLevelMaxSubBits : Nat :=
  36

def bucketHash (key : BitVec 64) : BitVec 64 :=
  fibHash key >>> twoLevelSlotShift

def bucketOf (key : BitVec 64) : Fin twoLevelBuckets :=
  ⟨(fibHash key).toNat % twoLevelBuckets, Nat.mod_lt _ (by decide)⟩

structure IntTwoLevelTable where
  subs : Fin twoLevelBuckets → IntSlots

namespace IntTwoLevelTable

-- A bucket stops doubling where its slots would reach the partition bits.
def growSub (s : IntSlots) : Option IntSlots :=
  if 0 < 2 ^ (s.bits + 1) >>> twoLevelMaxSubBits then some s else s.grow bucketHash

def settleSub (s : IntSlots) : Option IntSlots :=
  if s.overloaded then growSub s else some s

variable (t : IntTwoLevelTable)

def setSub (b : Fin twoLevelBuckets) (s : IntSlots) : IntTwoLevelTable :=
  ⟨update t.subs b s⟩

def addEntry (e : IntHashEntry) : Option IntTwoLevelTable :=
  let b := bucketOf e.key
  let s := t.subs b
  (IntSlots.placeEntry bucketHash s.bits s.entries e).bind fun entries =>
    (settleSub { s with entries := entries, size := s.size + 1 }).map (t.setSub b)

def convert (flat : IntSlots) : Option IntTwoLevelTable :=
  flat.liveEntries.foldlM addEntry ⟨fun _ => emptySlots (max 4 (flat.bits - 8))⟩

variable (key : BitVec 64)

def get : Option (Int × Bool) :=
  (t.subs (bucketOf key)).get bucketHash key

def getOrInsert (val : Int) : Option ((Int × Bool) × IntTwoLevelTable) :=
  ((t.subs (bucketOf key)).getOrInsertNoGrow bucketHash key val).bind fun r =>
    if r.1.2 then some (r.1, t)
    else (settleSub r.2).map fun s => (r.1, t.setSub (bucketOf key) s)

def delete : (Int × Bool) × IntTwoLevelTable :=
  let r := (t.subs (bucketOf key)).delete bucketHash key
  (r.1, t.setSub (bucketOf key) r.2)

def len : Nat :=
  ((List.finRange twoLevelBuckets).map fun b => (t.subs b).size).sum

def forEach : List (BitVec 64 × Int) :=
  (List.finRange twoLevelBuckets).flatMap fun b => (t.subs b).forEach

end IntTwoLevelTable

end Wadjet.Engine.Exec
