import Wadjet.Storage.Parquet.RleAgree

namespace Wadjet.Storage.Parquet

open Wadjet.Data List

-- The place of the census in the headers. Skipping a body can wrap the offset
-- below zero.
structure Census where
  off : Int
  emitted : Nat
  runs : Nat

-- Only a group that was counted is held against the limit.
inductive CensusStep where
  | stop (err : RleError)
  | skip (c : Census)
  | count (c : Census)

section Census

variable (data : List UInt8) (bitWidth count : Nat)

def censusPacked (groupCount : Int) (off : Nat) (c : Census) : CensusStep :=
  let numValues := wrap64 (groupCount * 8)
  if numValues < 0 ∨ numValues.tdiv 8 ≠ groupCount then .stop (.groupCountOverflow groupCount)
  else
    let rem : Int := count - c.emitted
    let numValues := if rem < numValues then rem else numValues
    let byteCount := wrap64 (groupCount * bitWidth)
    if byteCount < 0 then .stop .byteCountOverflow
    else
      let byteCount :=
        if (data.length : Int) < wrap64 (off + byteCount) then (data.length : Int) - off
        else byteCount
      .count ⟨wrap64 (off + byteCount), c.emitted + numValues.toNat, c.runs + numValues.toNat⟩

def censusGroup (off : Nat) (c : Census) : CensusStep :=
  match readVarint data off with
  | .error e => .stop (.header e)
  | .ok (header, off) =>
    if header % 2 = 0 then
      match readRLEValue data bitWidth off with
      | .error e => .stop e
      | .ok (_, off) =>
        let rem : Int := count - c.emitted
        let runLen : Int := (header / 2 : Nat)
        let runLen := if rem < runLen then rem else runLen
        if runLen ≤ 0 then .skip { c with off := off }
        else .count ⟨off, c.emitted + runLen.toNat, c.runs + 1⟩
    else if header / 2 = 0 then .skip { c with off := off }
    else censusPacked data bitWidth count (header / 2 : Nat) off c

-- No result is a panic at a negative offset. Every group takes a byte.
def censusLoop (limit : Int) : Nat → Census → Option (Nat × Option RleError)
  | 0, _ => none
  | fuel + 1, c =>
    if c.off < data.length ∧ c.emitted < count then
      if c.off < 0 then none
      else
        match censusGroup data bitWidth count c.off.toNat c with
        | .stop err => some (c.runs, some err)
        | .skip c => censusLoop limit fuel c
        | .count c => if limit < c.runs then some (c.runs, none) else censusLoop limit fuel c
    else some (c.runs, none)

def countRLERuns (limit : Int) : Option (Nat × Option RleError) :=
  censusLoop data bitWidth count limit (data.length + 1) ⟨0, 0, 0⟩

end Census

section Follows

variable {data : List UInt8} {bitWidth count : Nat}

-- What the census makes of the group that a header round of the iterator reads.
def CensusFollows (bitWidth count : Nat) (it : RLERunIterator) (runs : Nat) (step : CensusStep) :
    IterStep → Prop
  | .stop it' => it'.err ≠ none
  | .yield _ it' => it.off < it'.off ∧ Between count it' ∧
    step = .count ⟨it'.off, it'.emitted, runs + 1⟩
  | .again it' => it.off < it'.off ∧ Live it' ∧
    (Between count it' ∧ step = .skip ⟨it'.off, it'.emitted, runs⟩ ∨
      it'.bpFrom ≤ it'.bpTotal ∧ Between count (drained bitWidth it') ∧
      step = .count ⟨it'.off, (drained bitWidth it').emitted,
        runs + (pending bitWidth it').length⟩)

theorem slice_wrap64 {off : Nat} {byteCount : Int} {bytes : List UInt8} (hoff : off < 2 ^ 63)
    (hneg : 0 ≤ byteCount) (hbyte : byteCount < 2 ^ 63)
    (h : slice data off (wrap64 (off + byteCount)) = some bytes) :
    wrap64 (off + byteCount) = (off + byteCount.toNat : Nat) := by
  by_cases hwrap : (off : Int) + byteCount < 2 ^ 63
  · rw [wrap64_eq (by omega) hwrap]
    omega
  · rw [wrap64_of_ge (by omega) (by omega), slice, if_neg (by omega)] at h
    cases h

variable {it : RLERunIterator} {step : IterStep} {runs : Nat} (hit : Between count it)

include hit

theorem censusPacked_follows {groupCount off : Nat} (hdata : data.length < 2 ^ 48)
    (hoff : it.off < off) (hend : off ≤ data.length)
    (h : nextPacked data bitWidth count groupCount off it = some step) :
    CensusFollows bitWidth count it runs
      (censusPacked data bitWidth count groupCount off ⟨it.off, it.emitted, runs⟩) step := by
  unfold nextPacked at h
  unfold censusPacked
  dsimp only at h ⊢
  have hbounds := wrap64_bounds ((groupCount : Int) * bitWidth)
  generalize wrap64 ((groupCount : Int) * bitWidth) = byteCount at *
  split at h
  · cases h
    exact nofun
  next hguard =>
  split at h
  · cases h
    exact nofun
  next hneg =>
  rw [if_neg hguard, if_neg hneg]
  generalize hclip : (if (data.length : Int) < wrap64 (off + byteCount) then
    (data.length : Int) - off else byteCount) = clipped at h ⊢
  have hclipped : 0 ≤ clipped ∧ clipped < 2 ^ 63 := by split_ifs at hclip <;> omega
  obtain ⟨bytes, hbytes, rfl⟩ := Option.map_eq_some_iff.mp h
  rw [slice_wrap64 (by omega) hclipped.1 hclipped.2 hbytes]
  generalize hvalues : (if (count : Int) - it.emitted < wrap64 ((groupCount : Int) * 8) then
    (count : Int) - it.emitted else wrap64 ((groupCount : Int) * 8)) = numValues
  have hemitted := hit.emitted_le
  have hroom : it.emitted + numValues.toNat ≤ count := by split_ifs at hvalues <;> omega
  obtain ⟨hlive, hfrom, hdrained, hsum, hlength⟩ :=
    @between_packed bitWidth count it numValues.toNat (off + clipped.toNat) bytes hit hroom
  exact ⟨Nat.lt_add_right _ hoff, hlive, .inr ⟨hfrom, hdrained, by rw [hsum, hlength]⟩⟩

theorem censusGroup_follows (hdata : data.length < 2 ^ 48)
    (h : nextGroup data bitWidth count it = some step) :
    CensusFollows bitWidth count it runs
      (censusGroup data bitWidth count it.off ⟨it.off, it.emitted, runs⟩) step := by
  unfold nextGroup at h
  split at h
  · cases h
    exact nofun
  next header off hvarint =>
    obtain ⟨hoff, hend⟩ := readVarint_progress hvarint
    rw [censusGroup, hvarint]
    dsimp only
    by_cases heven : header % 2 = 0
    · rw [if_pos heven] at h ⊢
      rcases hvalue : readRLEValue data bitWidth off with e | ⟨val, off'⟩
      · rw [hvalue] at h
        cases h
        exact nofun
      · have hmore := (readRLEValue_progress hvalue).1
        rw [hvalue] at h
        dsimp only at h ⊢
        generalize hrun : (if (count : Int) - it.emitted < (header / 2 : Nat) then
          (count : Int) - it.emitted else (header / 2 : Nat)) = runLen at h ⊢
        by_cases hnone : runLen ≤ 0
        · rw [if_pos hnone] at h ⊢
          cases h
          exact ⟨hoff.trans_le hmore, hit.live,
            .inl ⟨⟨hit.live, hit.window, hit.total_le, hit.emitted_le⟩, rfl⟩⟩
        · rw [if_neg hnone] at h ⊢
          cases h
          have hemitted := hit.emitted_le
          have hroom : it.emitted + runLen.toNat ≤ count := by split_ifs at hrun <;> omega
          exact ⟨hoff.trans_le hmore, ⟨hit.live, hit.window, hit.total_le, hroom⟩, rfl⟩
    · rw [if_neg heven] at h ⊢
      by_cases hzero : header / 2 = 0
      · rw [if_pos hzero] at h ⊢
        cases h
        exact ⟨hoff, hit.live, .inl ⟨⟨hit.live, hit.window, hit.total_le, hit.emitted_le⟩, rfl⟩⟩
      · rw [if_neg hzero] at h ⊢
        exact censusPacked_follows hit hdata hoff hend h

end Follows

variable {data : Bytes} {bitWidth count : Nat}

theorem censusLoop_bounds (limit : Int) (fuel : Nat) {it last : RLERunIterator}
    {runs : List (BitVec 32 × Nat)} (hit : Between count it)
    (hfuel : data.data.length - it.off < fuel) (h : Runs data bitWidth count it runs last)
    (herr : last.err = none) (k : Nat) :
    ∃ n, censusLoop data.data bitWidth count limit fuel ⟨it.off, it.emitted, k⟩ = some (n, none) ∧
      (k + runs.length ≤ n ∨ limit < n) := by
  induction fuel generalizing it runs k with
  | zero => omega
  | succ fuel ih =>
    have hround := @Between.nextRound data bitWidth count it hit
    rw [censusLoop]
    by_cases hguard : data.data.length ≤ it.off ∨ count ≤ it.emitted
    · rw [if_pos hguard] at hround
      obtain ⟨rfl, -⟩ := (runs_stop hit.live hround).mp h
      exact ⟨k, if_neg (by dsimp only; omega), .inl le_rfl⟩
    rw [if_neg hguard] at hround
    rw [if_pos (by dsimp only; omega), if_neg (by dsimp only; omega), Int.toNat_natCast]
    -- a counted group ends the census above the limit, or the rest is counted on
    have hcount : ∀ {it' : RLERunIterator} {m : Nat} {segment rest : List (BitVec 32 × Nat)},
        Between count it' → it.off < it'.off → Runs data bitWidth count it' rest last →
        segment.length ≤ m →
        ∃ n, (if limit < (k + m : Nat) then some (k + m, none)
            else censusLoop data.data bitWidth count limit fuel ⟨it'.off, it'.emitted, k + m⟩) =
              some (n, none) ∧ (k + (segment ++ rest).length ≤ n ∨ limit < n) := by
      intro it' m segment rest hit' hoff hrest hm
      by_cases hlimit : limit < (k + m : Nat)
      · exact ⟨k + m, if_pos hlimit, .inr hlimit⟩
      obtain ⟨n, hn, hbound⟩ := ih hit' (by omega) hrest (k + m)
      rw [if_neg hlimit, length_append]
      exact ⟨n, hn, by omega⟩
    cases hgroup : nextGroup data.data bitWidth count it with
    | none =>
      have hnext : next data bitWidth count it = none := by
        rw [next_live hit.live, nextLoop_eq, hround, hgroup]
      cases h with
      | nil hend => cases hnext.symm.trans hend
      | cons hrun _ => cases hnext.symm.trans hrun
    | some step =>
      have hfollows := @censusGroup_follows data.data bitWidth count it step k hit data.fits hgroup
      rw [hgroup] at hround
      cases step with
      | stop it' =>
        obtain ⟨-, rfl⟩ := (runs_stop hit.live hround).mp h
        exact absurd herr hfollows
      | yield run it' =>
        obtain ⟨hoff, hit', hstep⟩ := hfollows
        obtain ⟨rest, rfl, hrest⟩ := (runs_yield hit.live hround).mp h
        rw [hstep]
        exact @hcount it' 1 [run] rest hit' hoff hrest le_rfl
      | again it' =>
        obtain ⟨hoff, hlive, hfollows⟩ := hfollows
        have hrest := (runs_again hround hit.live hlive).mp h
        obtain ⟨hit', hstep⟩ | ⟨hfrom, hit', hstep⟩ := hfollows
        · rw [hstep]
          exact ih hit' (by omega) hrest k
        · obtain ⟨segment, -, hlength, hdrain⟩ := @runs_drain data bitWidth count it' hlive hfrom
          obtain ⟨rest, rfl, htail⟩ := (hdrain _ _).mp hrest
          rw [hstep]
          exact hcount hit' hoff htail hlength

-- The census of a stream the iterator walks to its end bounds the runs, unless
-- it stopped above the limit.
theorem countRLERuns_bounds (data : Bytes) (bitWidth count : Nat) (limit : Int)
    (runs : List (BitVec 32 × Nat)) (last : RLERunIterator)
    (h : Runs data bitWidth count newRLERunIterator runs last) (herr : last.err = none) :
    ∃ n, countRLERuns data.data bitWidth count limit = some (n, none) ∧
      (runs.length ≤ n ∨ limit < n) := by
  obtain ⟨n, hn, hbound⟩ := @censusLoop_bounds data bitWidth count limit (data.data.length + 1)
    newRLERunIterator last runs between_start (Nat.lt_succ_self _) h herr 0
  exact ⟨n, hn, by simpa using hbound⟩

-- One bit-packed group of eight values and a run of two.
def mixedStream : Bytes :=
  ⟨[0x03, 0x88, 0xC6, 0xFA, 0x04, 0x07], by decide⟩

theorem countRLERuns_bounds_pair :
    ∃ runs n, expandRuns runs = [0, 1, 2, 3, 4, 5, 6, 7, 7, 7] ∧
      countRLERuns mixedStream.data 3 10 20 = some (n, none) ∧ (runs.length ≤ n ∨ (20 : Int) < n) := by
  obtain ⟨runs, last, hruns, hexpand, herr⟩ := @runs_expand mixedStream 3 10
    newRLERunIterator [0, 1, 2, 3, 4, 5, 6, 7, 7, 7] none between_start (by decide +kernel)
  obtain ⟨n, hn, hbound⟩ := countRLERuns_bounds mixedStream 3 10 20 runs last hruns herr
  exact ⟨runs, n, hexpand, hn, hbound⟩

end Wadjet.Storage.Parquet
