import Mathlib.Data.Nat.Bitwise

namespace Wadjet.Data

-- Slots of 64 bits; every hash sets one bit in each of two slots.
structure Bloom where
  slots : Nat → Nat
  mask : Nat

namespace Bloom

def empty (mask : Nat) : Bloom := ⟨fun _ => 0, mask⟩

variable (bloom : Bloom)

def setBit (slot bit : Nat) : Bloom :=
  { bloom with slots := Function.update bloom.slots slot (bloom.slots slot ||| 1 <<< bit) }

def set (hash : Nat) : Bloom :=
  (bloom.setBit (hash &&& bloom.mask) (hash &&& 63)).setBit
    ((hash >>> 17) &&& bloom.mask) ((hash >>> 6) &&& 63)

def contains (hash : Nat) : Bool :=
  (bloom.slots (hash &&& bloom.mask)).testBit (hash &&& 63) &&
    (bloom.slots ((hash >>> 17) &&& bloom.mask)).testBit ((hash >>> 6) &&& 63)

def ofHashes (mask : Nat) (hashes : List Nat) : Bloom := hashes.foldl set (empty mask)

theorem setBit_mask (slot bit : Nat) : (bloom.setBit slot bit).mask = bloom.mask := rfl

theorem testBit_setBit (slot bit slot' bit' : Nat) :
    ((bloom.setBit slot bit).slots slot').testBit bit' =
      ((bloom.slots slot').testBit bit' || (decide (slot' = slot) && decide (bit' = bit))) := by
  by_cases hslot : slot' = slot
  · subst hslot
    simp only [setBit, Nat.one_shiftLeft, decide_true, Bool.true_and]
    by_cases hbit : bit = bit' <;> simp [hbit, eq_comm]
  · simp [setBit, hslot]

theorem contains_set_self (hash : Nat) : (bloom.set hash).contains hash := by
  simp [contains, set, setBit_mask, testBit_setBit]

theorem contains_set_of_contains (added hash : Nat) (h : bloom.contains hash) :
    (bloom.set added).contains hash := by
  obtain ⟨hfirst, hsecond⟩ := Bool.and_eq_true_iff.mp h
  simp [contains, set, setBit_mask, testBit_setBit, hfirst, hsecond]

private theorem contains_foldl_set (hashes : List Nat) (bloom : Bloom) (hash : Nat)
    (h : bloom.contains hash ∨ hash ∈ hashes) :
    (hashes.foldl set bloom).contains hash := by
  induction hashes generalizing bloom with
  | nil => simpa using h
  | cons added rest ih =>
    apply ih
    rcases h with hold | hmem
    · exact Or.inl (contains_set_of_contains bloom added hash hold)
    · rcases List.mem_cons.mp hmem with rfl | hrest
      · exact Or.inl (contains_set_self bloom hash)
      · exact Or.inr hrest

theorem contains_ofHashes (mask : Nat) (hashes : List Nat) (hash : Nat) (h : hash ∈ hashes) :
    (ofHashes mask hashes).contains hash :=
  contains_foldl_set hashes (empty mask) hash (Or.inr h)

end Bloom

end Wadjet.Data
