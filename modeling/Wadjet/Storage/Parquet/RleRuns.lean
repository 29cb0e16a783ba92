import Wadjet.Storage.Parquet.Rle

namespace Wadjet.Storage.Parquet

open Wadjet.Data

-- The window is the part of the decoded buffer that has not been handed out.
structure RLERunIterator where
  off : Nat
  emitted : Nat
  bpData : List UInt8
  bpFrom : Nat
  bpTotal : Nat
  window : List (BitVec 32)
  err : Option RleError
  done : Bool

def newRLERunIterator : RLERunIterator :=
  ⟨0, 0, [], 0, 0, [], none, false⟩

def windowSize : Nat :=
  64

inductive IterStep where
  | yield (run : BitVec 32 × Nat) (it : RLERunIterator)
  | stop (it : RLERunIterator)
  | again (it : RLERunIterator)

section Next

variable (data : List UInt8) (bitWidth count : Nat)

def nextPacked (groupCount : Int) (off : Nat) (it : RLERunIterator) : Option IterStep :=
  let numValues := wrap64 (groupCount * 8)
  if numValues < 0 ∨ numValues.tdiv 8 ≠ groupCount then
    some (.stop { it with off := off, err := some (.groupCountOverflow groupCount) })
  else
    let rem : Int := count - it.emitted
    let numValues := if rem < numValues then rem else numValues
    let byteCount := wrap64 (groupCount * bitWidth)
    if byteCount < 0 then some (.stop { it with off := off, err := some .byteCountOverflow })
    else
      let byteCount :=
        if (data.length : Int) < wrap64 (off + byteCount) then (data.length : Int) - off
        else byteCount
      (slice data off (wrap64 (off + byteCount))).map fun bytes =>
        .again { it with
          off := off + byteCount.toNat
          bpData := bytes
          bpFrom := 0
          bpTotal := numValues.toNat
          window := [] }

def nextGroup (it : RLERunIterator) : Option IterStep :=
  match readVarint data it.off with
  | .error e => some (.stop { it with err := some (.header e) })
  | .ok (header, off) =>
    if header % 2 = 0 then
      match readRLEValue data bitWidth off with
      | .error e => some (.stop { it with off := off, err := some e })
      | .ok (val, off) =>
        let rem : Int := count - it.emitted
        let runLen : Int := (header / 2 : Nat)
        let runLen := if rem < runLen then rem else runLen
        if runLen ≤ 0 then some (.again { it with off := off })
        else some (.yield (val, runLen.toNat)
          { it with off := off, emitted := it.emitted + runLen.toNat })
    else if header / 2 = 0 then some (.again { it with off := off })
    else nextPacked data bitWidth count (header / 2 : Nat) off it

def nextRound (it : RLERunIterator) : Option IterStep :=
  match it.window with
  | val :: rest =>
    let same := rest.takeWhile (· == val)
    some (.yield (val, same.length + 1)
      { it with
        window := rest.dropWhile (· == val)
        emitted := it.emitted + (same.length + 1) })
  | [] =>
    if it.bpFrom < it.bpTotal then
      let k := min (it.bpTotal - it.bpFrom) windowSize
      some (.again { it with
        window := decodeBitPackedRange it.bpData bitWidth it.bpFrom k
        bpFrom := it.bpFrom + k })
    else if data.length ≤ it.off ∨ count ≤ it.emitted then some (.stop { it with done := true })
    else nextGroup data bitWidth count it

end Next

variable {data : List UInt8} {bitWidth count : Nat} {it it' : RLERunIterator}

theorem nextPacked_progress {groupCount : Int} {off : Nat}
    (h : nextPacked data bitWidth count groupCount off it = some (.again it')) : off ≤ it'.off := by
  unfold nextPacked at h
  dsimp only at h
  split_ifs at h <;>
    simp only [Option.map_eq_some_iff, IterStep.again.injEq, Option.some.injEq] at h <;>
    obtain ⟨-, -, rfl⟩ := h <;>
    exact Nat.le_add_right _ _

theorem nextGroup_progress
    (h : nextGroup data bitWidth count it = some (.again it')) : it.off < it'.off := by
  unfold nextGroup at h
  split at h
  · cases h
  · rename_i header off hvarint
    have hprogress := (readVarint_progress hvarint).1
    split_ifs at h with heven hzero
    · split at h
      · cases h
      · rename_i val off2 hvalue
        have hmore := (readRLEValue_progress hvalue).1
        dsimp only at h
        split_ifs at h <;> cases h <;> exact hprogress.trans_le hmore
    · cases h
      exact hprogress
    · exact hprogress.trans_le (nextPacked_progress h)

theorem nextRound_progress (h : nextRound data bitWidth count it = some (.again it')) :
    it.off < data.length ∧ it.off < it'.off ∨
      it'.off = it.off ∧ it'.bpTotal - it'.bpFrom < it.bpTotal - it.bpFrom := by
  unfold nextRound at h
  split at h
  · cases h
  · split_ifs at h with hrefill hend
    · cases h
      refine .inr ⟨rfl, ?_⟩
      simp only [windowSize]
      omega
    · cases h
    · exact .inl ⟨by omega, nextGroup_progress h⟩

-- The rounds of one call. No result is a panic.
def nextLoop (data : List UInt8) (bitWidth count : Nat) (it : RLERunIterator) :
    Option (Option (BitVec 32 × Nat) × RLERunIterator) :=
  match _hstep : nextRound data bitWidth count it with
  | none => none
  | some (.yield run it) => some (some run, it)
  | some (.stop it) => some (none, it)
  | some (.again it) => nextLoop data bitWidth count it
termination_by (data.length - it.off, it.bpTotal - it.bpFrom)
decreasing_by
  obtain ⟨hend, hoff⟩ | ⟨hoff, hleft⟩ := nextRound_progress _hstep
  · exact Prod.Lex.left _ _ (by omega)
  · rw [hoff]
    exact Prod.Lex.right _ hleft

def next (data : Bytes) (bitWidth count : Nat) (it : RLERunIterator) :
    Option (Option (BitVec 32 × Nat) × RLERunIterator) :=
  if it.err.isSome ∨ it.done then some (none, it)
  else nextLoop data.data bitWidth count it

inductive Runs (data : Bytes) (bitWidth count : Nat) :
    RLERunIterator → List (BitVec 32 × Nat) → RLERunIterator → Prop
  | nil {it it' : RLERunIterator} (h : next data bitWidth count it = some (none, it')) :
      Runs data bitWidth count it [] it'
  | cons {it it' last : RLERunIterator} {run : BitVec 32 × Nat} {runs : List (BitVec 32 × Nat)}
      (h : next data bitWidth count it = some (some run, it'))
      (rest : Runs data bitWidth count it' runs last) :
      Runs data bitWidth count it (run :: runs) last

def expandRuns (runs : List (BitVec 32 × Nat)) : List (BitVec 32) :=
  runs.flatMap fun run => List.replicate run.2 run.1

end Wadjet.Storage.Parquet
