import Mathlib.Data.List.TakeWhile
import Wadjet.Storage.Parquet.RleDecode

namespace Wadjet.Storage.Parquet

open Wadjet.Data List

section Iterator

variable {data : List UInt8} {bitWidth count : Nat}

-- How a header round of the iterator answers to a group.
def IterRefines (it : RLERunIterator) : Group → Option IterStep → Prop
  | .fail err, step => ∃ it', step = some (.stop it') ∧ it'.err = some err
  | .wraps, _ => True
  | .emit (.run val n) next, step =>
    step = if n = 0 then some (.again { it with off := next })
      else some (.yield (val, n) { it with off := next, emitted := it.emitted + n })
  | .emit (.packed bytes n) next, step =>
    step = some (.again { it with
      off := next
      bpData := bytes
      bpFrom := 0
      bpTotal := n
      window := [] })

theorem nextPacked_refines {it : RLERunIterator} {groupCount off : Nat}
    (hdata : data.length < 2 ^ 48) (hgroup : groupCount < 2 ^ 63)
    (hemitted : it.emitted ≤ count) (hoff : off ≤ data.length) :
    IterRefines it (packedAt data bitWidth false count groupCount off it.emitted)
      (nextPacked data bitWidth count groupCount off it) := by
  simp only [packedAt, nextPacked, groupCount_guard hgroup]
  by_cases hguard : 2 ^ 63 ≤ groupCount * 8
  · rw [if_pos hguard, if_pos hguard]
    exact ⟨_, rfl, rfl⟩
  have hvalues : (if (count : Int) - it.emitted < wrap64 ((groupCount : Int) * 8) then
      (count : Int) - it.emitted else wrap64 ((groupCount : Int) * 8)).toNat =
      min (groupCount * 8) (count - it.emitted) := by
    rw [wrap64_eq (by omega) (by omega)]
    split_ifs <;> omega
  rw [if_neg hguard, if_neg hguard, hvalues]
  generalize wrap64 ((groupCount : Int) * bitWidth) = byteCount at *
  by_cases hneg : byteCount < 0
  · rw [if_pos hneg, if_pos hneg]
    exact ⟨_, rfl, rfl⟩
  rw [if_neg hneg, if_neg hneg]
  by_cases hwrap : 2 ^ 63 ≤ off + byteCount.toNat
  · rw [if_pos hwrap]
    trivial
  have hclip := clipped_slice hdata hoff hneg hwrap
  rw [if_neg hwrap]
  by_cases hpast : data.length < off + byteCount.toNat
  · obtain ⟨hpast', hslice, hnext⟩ := (if_pos hpast).mp hclip
    rw [if_pos hpast, if_pos hpast', hslice, hnext]
    rfl
  · obtain ⟨hpast', hslice⟩ := (if_neg hpast).mp hclip
    rw [if_neg hpast, if_neg hpast', hslice]
    rfl

theorem nextGroup_refines {it : RLERunIterator} (hdata : data.length < 2 ^ 48)
    (hemitted : it.emitted ≤ count) :
    IterRefines it (groupAt data bitWidth false count it.off it.emitted)
      (nextGroup data bitWidth count it) := by
  unfold groupAt nextGroup
  cases hvarint : readVarint data it.off with
  | error e => exact ⟨_, rfl, rfl⟩
  | ok header =>
    obtain ⟨header, off1⟩ := header
    have hheader := readVarint_lt hvarint
    dsimp only
    by_cases heven : header % 2 = 0
    · rw [if_pos heven, if_pos heven]
      cases hvalue : readRLEValue data bitWidth off1 with
      | error e => exact ⟨_, rfl, rfl⟩
      | ok val =>
        dsimp only
        by_cases hwrap : 2 ^ 63 ≤ it.emitted + header / 2
        · rw [if_pos hwrap]
          trivial
        have hrun : (if (count : Int) - it.emitted < (header / 2 : Nat) then
            (count : Int) - it.emitted else ((header / 2 : Nat) : Int)) =
            (min (header / 2) (count - it.emitted) : Nat) := by
          split_ifs <;> omega
        rw [if_neg hwrap, hrun]
        by_cases hnone : min (header / 2) (count - it.emitted) = 0
        · rw [if_pos (by omega)]
          exact (if_pos hnone).symm
        · rw [if_neg (by omega)]
          exact (if_neg hnone).symm
    · rw [if_neg heven, if_neg heven]
      by_cases hzero : header / 2 = 0
      · rw [if_pos hzero, if_pos hzero]
        rfl
      · rw [if_neg hzero, if_neg hzero]
        exact nextPacked_refines hdata (by omega) hemitted
          (readVarint_progress hvarint).2

end Iterator

theorem nextLoop_eq (data : List UInt8) (bitWidth count : Nat) (it : RLERunIterator) :
    nextLoop data bitWidth count it =
      match nextRound data bitWidth count it with
      | none => none
      | some (.yield run it) => some (some run, it)
      | some (.stop it) => some (none, it)
      | some (.again it) => nextLoop data bitWidth count it := by
  rw [nextLoop]
  split <;> rename_i heq <;> rw [heq]

def Live (it : RLERunIterator) : Prop :=
  it.err = none ∧ it.done = false

section Rounds

variable {data : Bytes} {bitWidth count : Nat} {it it' last : RLERunIterator}
  {run : BitVec 32 × Nat} {runs : List (BitVec 32 × Nat)}

theorem next_live (h : Live it) :
    next data bitWidth count it = nextLoop data.data bitWidth count it := by
  obtain ⟨herr, hdone⟩ := h
  rw [next, if_neg (by simp [herr, hdone])]

theorem Runs.of_next (hnext : next data bitWidth count it = next data bitWidth count it')
    (h : Runs data bitWidth count it' runs last) : Runs data bitWidth count it runs last := by
  cases h with
  | nil hend => exact .nil (hnext.trans hend)
  | cons hrun hrest => exact .cons (hnext.trans hrun) hrest

theorem runs_again (h : nextRound data.data bitWidth count it = some (.again it'))
    (hlive : Live it) (hlive' : Live it') :
    Runs data bitWidth count it runs last ↔ Runs data bitWidth count it' runs last := by
  have hnext : next data bitWidth count it = next data bitWidth count it' := by
    rw [next_live hlive, next_live hlive', nextLoop_eq, h]
  exact ⟨.of_next hnext.symm, .of_next hnext⟩

variable (hlive : Live it)

include hlive

theorem runs_yield (h : nextRound data.data bitWidth count it = some (.yield run it')) :
    Runs data bitWidth count it runs last ↔
      ∃ rest, runs = run :: rest ∧ Runs data bitWidth count it' rest last := by
  have hnext : next data bitWidth count it = some (some run, it') := by
    rw [next_live hlive, nextLoop_eq, h]
  constructor
  · intro hruns
    cases hruns with
    | nil hend => cases hnext.symm.trans hend
    | cons hrun hrest =>
      cases hnext.symm.trans hrun
      exact ⟨_, rfl, hrest⟩
  · rintro ⟨rest, rfl, hrest⟩
    exact .cons hnext hrest

theorem runs_stop (h : nextRound data.data bitWidth count it = some (.stop it')) :
    Runs data bitWidth count it runs last ↔ runs = [] ∧ last = it' := by
  have hnext : next data bitWidth count it = some (none, it') := by
    rw [next_live hlive, nextLoop_eq, h]
  constructor
  · intro hruns
    cases hruns with
    | nil hend =>
      cases hnext.symm.trans hend
      exact ⟨rfl, rfl⟩
    | cons hrun hrest => cases hnext.symm.trans hrun
  · rintro ⟨rfl, rfl⟩
    exact .nil hnext

omit hlive

def pending (bitWidth : Nat) (it : RLERunIterator) : List (BitVec 32) :=
  it.window ++ decodeBitPackedRange it.bpData bitWidth it.bpFrom (it.bpTotal - it.bpFrom)

def drained (bitWidth : Nat) (it : RLERunIterator) : RLERunIterator :=
  { it with
    window := []
    bpFrom := it.bpTotal
    emitted := it.emitted + (pending bitWidth it).length }

theorem decodeBitPackedRange_add (data : List UInt8) (bitWidth start k n : Nat) :
    decodeBitPackedRange data bitWidth start (k + n) =
      decodeBitPackedRange data bitWidth start k ++
        decodeBitPackedRange data bitWidth (start + k) n := by
  simp only [decodeBitPackedRange, range_add, map_append, map_map]
  congr 2
  funext i
  simp [Nat.add_assoc]

theorem pending_refill (bitWidth : Nat) {it : RLERunIterator} {k : Nat} (hwindow : it.window = [])
    (hk : k ≤ it.bpTotal - it.bpFrom) :
    pending bitWidth { it with
      window := decodeBitPackedRange it.bpData bitWidth it.bpFrom k
      bpFrom := it.bpFrom + k } = pending bitWidth it := by
  have hleft : it.bpTotal - it.bpFrom = k + (it.bpTotal - (it.bpFrom + k)) := by omega
  simp only [pending, hwindow, nil_append]
  rw [hleft, decodeBitPackedRange_add]

theorem replicate_takeWhile (val : BitVec 32) (rest : List (BitVec 32)) :
    replicate (rest.takeWhile (· == val)).length val = rest.takeWhile (· == val) := by
  symm
  rw [eq_replicate_iff]
  exact ⟨rfl, fun v hv => by simpa using mem_takeWhile_imp hv⟩

-- A round inside a packed run hands out the values `out`; the second field counts the rounds left.
structure Hands (bitWidth : Nat) (it it' : RLERunIterator) (out : List (BitVec 32)) : Prop where
  live : Live it → Live it'
  less : 2 * (it'.bpTotal - it'.bpFrom) + it'.window.length <
    2 * (it.bpTotal - it.bpFrom) + it.window.length
  from_le : it'.bpFrom ≤ it'.bpTotal
  drained : drained bitWidth it' = drained bitWidth it
  pending : pending bitWidth it = out ++ pending bitWidth it'

theorem nextRound_window {val : BitVec 32} {rest : List (BitVec 32)} (hfrom : it.bpFrom ≤ it.bpTotal)
    (hwindow : it.window = val :: rest) : ∃ n it',
      nextRound data.data bitWidth count it = some (.yield (val, n + 1) it') ∧
        Hands bitWidth it it' (replicate (n + 1) val) := by
  have hsplit : (rest.takeWhile (· == val)).length + (rest.dropWhile (· == val)).length =
      rest.length := by
    rw [← length_append, takeWhile_append_dropWhile]
  refine ⟨(rest.takeWhile (· == val)).length, _, by rw [nextRound, hwindow], ?_⟩
  refine ⟨id, ?_, hfrom, ?_, ?_⟩
  · simp only [hwindow, length_cons]
    omega
  · simp only [drained, pending, hwindow, length_append, length_cons]
    congr 1
    omega
  · simp only [pending, hwindow, replicate_succ, replicate_takeWhile, cons_append]
    rw [← append_assoc, takeWhile_append_dropWhile]

theorem nextRound_refill (hwindow : it.window = []) (hfrom : it.bpFrom < it.bpTotal) : ∃ it',
    nextRound data.data bitWidth count it = some (.again it') ∧ Hands bitWidth it it' [] := by
  have hpos : 0 < windowSize := by decide
  have hpending := pending_refill bitWidth hwindow
    (Nat.min_le_left (it.bpTotal - it.bpFrom) windowSize)
  refine ⟨_, by rw [nextRound, hwindow]; exact if_pos hfrom, ?_⟩
  refine ⟨id, ?_, ?_, ?_, hpending.symm⟩
  · simp only [length_decodeBitPackedRange]
    omega
  · simp only
    omega
  · simp only [drained, hpending]

-- A packed run is handed out whole before the next header is read, in no more
-- runs than it has values.
theorem runs_drain (hlive : Live it) (hfrom : it.bpFrom ≤ it.bpTotal) :
    ∃ segment, expandRuns segment = pending bitWidth it ∧
      segment.length ≤ (pending bitWidth it).length ∧ ∀ runs last,
        Runs data bitWidth count it runs last ↔
          ∃ rest, runs = segment ++ rest ∧ Runs data bitWidth count (drained bitWidth it) rest last := by
  induction hmeasure : 2 * (it.bpTotal - it.bpFrom) + it.window.length
      using Nat.strong_induction_on generalizing it with
  | _ measure ih =>
    cases hwindow : it.window with
    | cons val rest =>
      obtain ⟨n, it', hround, hhands⟩ := nextRound_window hfrom hwindow
      obtain ⟨segment, hvalues, hlength, hruns⟩ := ih _ (hmeasure ▸ hhands.less)
        (hhands.live hlive) hhands.from_le rfl
      refine ⟨(val, n + 1) :: segment, ?_, ?_, fun runs last => ?_⟩
      · rw [hhands.pending, ← hvalues]
        rfl
      · rw [hhands.pending, length_append, length_replicate, length_cons]
        omega
      · rw [runs_yield hlive hround, ← hhands.drained]
        simp only [hruns]
        constructor
        · rintro ⟨_, rfl, rest, rfl, hrest⟩
          exact ⟨rest, rfl, hrest⟩
        · rintro ⟨rest, rfl, hrest⟩
          exact ⟨_, rfl, rest, rfl, hrest⟩
    | nil =>
      by_cases hrefill : it.bpFrom < it.bpTotal
      · obtain ⟨it', hround, hhands⟩ := @nextRound_refill data bitWidth count it hwindow hrefill
        have hagain := ih _ (hmeasure ▸ hhands.less) (hhands.live hlive) hhands.from_le rfl
        have hpending : pending bitWidth it' = pending bitWidth it := hhands.pending.symm
        rw [hhands.drained, hpending] at hagain
        simpa only [runs_again hround hlive (hhands.live hlive)] using hagain
      · have htotal : it.bpTotal = it.bpFrom := by omega
        have hpending : pending bitWidth it = [] := by
          simp only [pending, hwindow, htotal, Nat.sub_self]
          rfl
        have hdrained : drained bitWidth it = it := by
          simp only [drained, htotal]
          cases it
          simp_all
        rw [hdrained]
        exact ⟨[], hpending.symm, Nat.zero_le _, fun runs last => by simp⟩

structure Between (count : Nat) (it : RLERunIterator) : Prop where
  live : Live it
  window : it.window = []
  total_le : it.bpTotal ≤ it.bpFrom
  emitted_le : it.emitted ≤ count

theorem between_start : Between count newRLERunIterator :=
  ⟨⟨rfl, rfl⟩, rfl, le_rfl, Nat.zero_le _⟩

theorem Between.nextRound (hit : Between count it) : nextRound data.data bitWidth count it =
    if data.data.length ≤ it.off ∨ count ≤ it.emitted then some (.stop { it with done := true })
    else nextGroup data.data bitWidth count it := by
  rw [Parquet.nextRound, hit.window]
  exact if_neg (not_lt.mpr hit.total_le)

-- Entering a packed run of n values, all of them still to be handed out.
theorem between_packed {n : Nat} (off : Nat) (bytes : List UInt8)
    (hit : Between count it) (hroom : it.emitted + n ≤ count) :
    let it' : RLERunIterator :=
      { it with off := off, bpData := bytes, bpFrom := 0, bpTotal := n, window := [] }
    Live it' ∧ it'.bpFrom ≤ it'.bpTotal ∧ Between count (drained bitWidth it') ∧
      (drained bitWidth it').emitted = it.emitted + n ∧ (pending bitWidth it').length = n := by
  intro it'
  have hlength : (pending bitWidth it').length = n := length_decodeBitPackedRange bytes bitWidth 0 n
  have hemitted : (drained bitWidth it').emitted = it.emitted + n := congrArg (it.emitted + ·) hlength
  exact ⟨hit.live, Nat.zero_le _, ⟨hit.live, rfl, le_rfl, hemitted ▸ hroom⟩, hemitted, hlength⟩

-- Between groups the iterator yields the values of the rest of the stream.
theorem runs_expand {values : List (BitVec 32)} {err : Option RleError} (hit : Between count it)
    (h : expand data.data bitWidth false count it.off it.emitted = some (values, err)) :
    ∃ runs last, Runs data bitWidth count it runs last ∧ expandRuns runs = values ∧
      last.err = err := by
  induction hleft : data.data.length - it.off using Nat.strong_induction_on
      generalizing it values with
  | _ left ih =>
    have hlive := hit.live
    have hrefines := @nextGroup_refines data.data bitWidth count it data.fits hit.emitted_le
    have hround := @Between.nextRound data bitWidth count it hit
    rw [expand_eq] at h
    by_cases hguard : it.off < data.data.length ∧ it.emitted < count
    · rw [if_pos hguard] at h
      rw [if_neg (by omega)] at hround
      cases hgroup : groupAt data.data bitWidth false count it.off it.emitted with
      | fail err' =>
        rw [hgroup] at h hrefines
        cases h
        obtain ⟨it', hstep, herr⟩ := hrefines
        exact ⟨[], it', (runs_stop hlive (hround.trans hstep)).mpr ⟨rfl, rfl⟩, rfl, herr⟩
      | wraps =>
        rw [hgroup] at h
        cases h
      | emit burst next =>
        obtain ⟨hprogress, -, hroom⟩ := groupAt_progress hgroup
        rw [hgroup] at h hrefines
        obtain ⟨⟨rest, err'⟩, hrest, heq⟩ := Option.map_eq_some_iff.mp h
        cases heq
        cases burst with
        | run val n =>
          simp only [Burst.size] at hroom hrest
          rw [show nextGroup data.data bitWidth count it = _ from hrefines] at hround
          obtain ⟨runs, last, hruns, hvalues, herr⟩ :=
            @ih (data.data.length - next) (by omega)
              { it with off := next, emitted := it.emitted + n } rest
              ⟨hlive, hit.window, hit.total_le, by simp only; omega⟩ hrest rfl
          by_cases hn : n = 0
          · subst hn
            exact ⟨runs, last, (runs_again hround hlive hlive).mpr hruns, hvalues, herr⟩
          · rw [if_neg hn] at hround
            refine ⟨_, last, (runs_yield hlive hround).mpr ⟨runs, rfl, hruns⟩, ?_, herr⟩
            rw [← hvalues]
            rfl
        | packed bytes n =>
          simp only [Burst.size] at hroom hrest
          obtain ⟨hlive', hfrom, hdrained, hsum, -⟩ :=
            @between_packed bitWidth count it n next bytes hit (by omega)
          obtain ⟨runs, last, hruns, hvalues, herr⟩ :=
            ih (data.data.length - next) (by omega) hdrained (hsum ▸ hrest) rfl
          obtain ⟨segment, hpending, -, hsegment⟩ := @runs_drain data bitWidth count _ hlive' hfrom
          refine ⟨segment ++ runs, last, (runs_again (hround.trans hrefines) hlive hlive).mpr
            ((hsegment _ _).mpr ⟨runs, rfl, hruns⟩), ?_, herr⟩
          rw [expandRuns, flatMap_append]
          exact congrArg₂ (· ++ ·) hpending hvalues
    · rw [if_neg hguard] at h
      cases h
      rw [if_pos (by omega)] at hround
      exact ⟨[], _, (runs_stop hlive hround).mpr ⟨rfl, rfl⟩, rfl, hlive.1⟩

end Rounds

-- What a decode owes its caller: no panic, a length within the buffer, and the
-- values and the error of the run iterator, which does not refuse a short run.
def DecodesSoundly (data : Bytes) (bitWidth count : Nat) (strict : Bool) : Prop :=
  ∀ dst : List (BitVec 32), dst.length = count →
    ∃ out, decodeAllBatch data bitWidth strict dst = some out ∧ 0 ≤ out.n ∧ out.n ≤ count ∧
      (strict = false → ∃ runs last,
        Runs data bitWidth count newRLERunIterator runs last ∧
          expandRuns runs = out.dst.take out.n.toNat ∧ last.err = out.err)

theorem decodesSoundly_iff (data : Bytes) (bitWidth count : Nat) (strict : Bool)
    (hcount : count ≤ maxPageValues) :
    DecodesSoundly data bitWidth count strict ↔ SumsFit data bitWidth strict count := by
  constructor
  · intro hsound
    obtain ⟨out, hout, hnonneg, -⟩ :=
      hsound (replicate count 0) length_replicate
    by_contra hwraps
    rw [SumsFit, Option.not_isSome_iff_eq_none] at hwraps
    have hspec := @decodeLoop_spec data.data bitWidth strict (replicate count 0) 0 0 data.fits
      (by rwa [length_replicate]) (Nat.zero_le _)
    rw [length_replicate, hwraps] at hspec
    have hneg := hspec out hout
    omega
  · intro hfits dst hdst
    subst hdst
    obtain ⟨⟨values, err⟩, hexpand⟩ := Option.isSome_iff_exists.mp hfits
    have hspec := @decodeLoop_spec data.data bitWidth strict dst 0 0 data.fits hcount (Nat.zero_le _)
    rw [hexpand] at hspec
    obtain ⟨hroom, hloop⟩ := hspec
    refine ⟨_, hloop, by simp only; omega, by simp only; omega, ?_⟩
    rintro rfl
    obtain ⟨runs, last, hruns, hvalues, herr⟩ := @runs_expand data bitWidth dst.length
      newRLERunIterator values err between_start hexpand
    refine ⟨runs, last, hruns, ?_, herr⟩
    rw [hvalues, Nat.zero_add, Int.toNat_natCast, take_stored]

theorem decodesSoundly_iff_pair : DecodesSoundly ⟨[0x04, 0x07], by decide⟩ 3 2 false :=
  (decodesSoundly_iff ⟨[0x04, 0x07], by decide⟩ 3 2 false (by decide)).mpr
    (by unfold SumsFit; decide +kernel)

-- A run of 2^63 - 1 values after one value leaves a negative length, and a
-- packed run of 2^60 - 1 groups of whole bytes slices past the machine integers.
theorem wrapped_run_negative :
    (decodeAllBatch ⟨[0x02, 0xFE, 0xFF, 0xFF, 0xFF, 0xFF, 0xFF, 0xFF, 0xFF, 0xFF, 0x01],
        by decide⟩ 0 false [0, 0]).map Decoded.n = some (-2 ^ 63) ∧
      (decodeAllBatch ⟨[0xFF, 0xFF, 0xFF, 0xFF, 0xFF, 0xFF, 0xFF, 0xFF, 0x1F], by decide⟩
        8 false [0]).isNone := by
  decide +kernel

end Wadjet.Storage.Parquet
