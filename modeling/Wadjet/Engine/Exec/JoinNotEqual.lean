import Wadjet.Data.Bloom
import Wadjet.Engine.Exec.IntGroupBy

namespace Wadjet.Engine.Exec

open Wadjet.Data List IntGroups

-- A batch by what intKeyFromVector reads at a row, none for NULL.
structure NeBatch where
  len : Nat
  sel : Option (List Nat)
  key : Nat → Option (BitVec 64)
  val : Nat → Option (BitVec 64)

namespace NeBatch

def rows (b : NeBatch) : List Nat :=
  b.sel.getD (range b.len)

def pair (b : NeBatch) (row : Nat) : Option (BitVec 64 × BitVec 64) :=
  (b.key row).bind fun key => (b.val row).map fun val => (key, val)

end NeBatch

structure NePair where
  v1 : BitVec 64
  v2 : BitVec 64
  n : Nat

def NePair.add (p : NePair) (val : BitVec 64) : NePair :=
  if p.n = 1 ∧ p.v1 ≠ val then { p with v2 := val, n := 2 } else p

structure NeTable where
  intIdx : List (BitVec 64 × Int)
  nePairs : List NePair

def bloomHashInt (key : BitVec 64) : BitVec 64 :=
  let x := key * 0x9E3779B97F4A7C15#64
  x ^^^ (x >>> 32)

namespace NeTable

variable (t : NeTable)

-- An index out of range panics, here and below as none.
def pairAt (slot : Int) : Option NePair :=
  if slot < 0 then none else t.nePairs[slot.toNat]?

def insert : BitVec 64 × BitVec 64 → Option NeTable
  | (key, val) =>
    match t.intIdx.lookup key with
    | none => some ⟨t.intIdx ++ [(key, int32 t.nePairs.length)], t.nePairs ++ [⟨val, 0, 1⟩]⟩
    | some slot => (t.pairAt slot).map fun p =>
        { t with nePairs := t.nePairs.set slot.toNat (p.add val) }

def insertNEBatch (b : NeBatch) : Option NeTable :=
  (b.rows.filterMap b.pair).foldlM insert t

def bloomSlots (nKeys : Nat) : Nat :=
  max 8 (2 ^ Nat.clog 2 ((nKeys * 10 + 63) / 64))

def buildBloom : Option Bloom :=
  if t.intIdx.length = 0 then none
  else
    some (.ofHashes (bloomSlots t.intIdx.length - 1)
      ((t.intIdx.map Prod.fst).map fun key => (bloomHashInt key).toNat))

def bloomMayContain (key : BitVec 64) : Bool :=
  match t.buildBloom with
  | none => true
  | some bloom => bloom.contains (bloomHashInt key).toNat

def keeps (isSemi : Bool) (b : NeBatch) (row : Nat) : Option Bool :=
  match b.pair row with
  | none => some !isSemi
  | some (key, x) =>
    if !t.bloomMayContain key then some !isSemi
    else
      match t.intIdx.lookup key with
      | none => some !isSemi
      | some slot => (t.pairAt slot).map fun p => (decide (2 ≤ p.n) || p.v1 != x) == isSemi

end NeTable

def addBatch (table : Option NeTable) (b : NeBatch) : Option (Option NeTable) :=
  ((table.getD ⟨[], []⟩).insertNEBatch b).map some

def buildNE (batches : List NeBatch) : Option (Option NeTable) :=
  batches.foldlM addBatch none

def NeTable.check (t : NeTable) (isSemi : Bool) (b : NeBatch) (sel : List Nat) (row : Nat) :
    Option (List Nat) :=
  (t.keeps isSemi b row).map fun keep => if keep then sel ++ [row] else sel

def probeNESemiAnti (table : Option NeTable) (isSemi : Bool) (b : NeBatch) : Option (List Nat) :=
  match table with
  | none => some (if isSemi then [] else b.rows)
  | some t => b.rows.foldlM (t.check isSemi b) []

def neMatches (probe build : Option (BitVec 64 × BitVec 64)) : Bool :=
  probe.any fun p => build.any fun q => p.1 == q.1 && p.2 != q.2

variable (build : List NeBatch)

def neExists (b : NeBatch) (row : Nat) : Bool :=
  build.any fun c => c.rows.any fun r => neMatches (b.pair row) (c.pair r)

def AnswersNotEqual : Prop :=
  ∃ table, buildNE build = some table ∧ ∀ b,
    probeNESemiAnti table true b = some (b.rows.filter fun row => neExists build b row) ∧
      probeNESemiAnti table false b = some (b.rows.filter fun row => !neExists build b row)

def storedPairs : List (BitVec 64 × BitVec 64) :=
  build.flatMap fun b => b.rows.filterMap b.pair

variable {b : NeBatch} {row : Nat}

theorem neExists_iff {build : List NeBatch} {key x : BitVec 64} (h : b.pair row = some (key, x)) :
    neExists build b row ↔ ∃ v, (key, v) ∈ storedPairs build ∧ v ≠ x := by
  simp only [neExists, neMatches, h, storedPairs, any_eq_true, mem_flatMap, mem_filterMap,
    Option.any_some, Option.any_eq_true, Bool.and_eq_true, beq_iff_eq, bne_iff_ne]
  constructor
  · rintro ⟨c, hc, r, hr, ⟨_, v⟩, hq, rfl, hv⟩
    exact ⟨v, ⟨c, hc, r, hr, hq⟩, hv.symm⟩
  · rintro ⟨v, ⟨c, hc, r, hr, hq⟩, hv⟩
    exact ⟨c, hc, r, hr, _, hq, rfl, hv.symm⟩

namespace NeTable

variable {t t' : NeTable} {keys : List (BitVec 64)} {key val x : BitVec 64}
  {seen : List (BitVec 64 × BitVec 64)}

theorem lookup_mapIdx (f : Nat → Int) (keys : List (BitVec 64)) (key : BitVec 64) :
    (keys.mapIdx fun i key => (key, f i)).lookup key =
      if key ∈ keys then some (f (keys.idxOf key)) else none := by
  induction keys using reverseRecOn with
  | nil => rfl
  | append_singleton keys last ih =>
    rw [mapIdx_concat, lookup_append, ih]
    by_cases hmem : key ∈ keys
    · simp [hmem, idxOf_append_of_mem]
    · by_cases heq : key = last
      · simp [heq ▸ hmem, heq, idxOf_append_of_notMem]
      · simp [hmem, heq]

structure Keyed (t : NeTable) (keys : List (BitVec 64)) : Prop where
  index : t.intIdx = keys.mapIdx fun i key => (key, int32 i)
  length : t.nePairs.length = keys.length

theorem Keyed.lookup (h : Keyed t keys) (key : BitVec 64) :
    t.intIdx.lookup key = if key ∈ keys then some (int32 (keys.idxOf key)) else none := by
  rw [h.index]
  exact lookup_mapIdx (fun i => int32 i) keys key

theorem Keyed.mayContain (h : Keyed t keys) (hmem : key ∈ keys) : t.bloomMayContain key := by
  have hsome : t.intIdx.lookup key ≠ none := by
    rw [h.lookup, if_pos hmem]
    exact Option.some_ne_none _
  have hkey : key ∈ t.intIdx.map Prod.fst := by
    simp only [ne_eq, lookup_eq_none_iff, bne_iff_ne, not_forall, not_not] at hsome
    obtain ⟨e, he, rfl⟩ := hsome
    exact mem_map_of_mem he
  unfold bloomMayContain
  split
  · rfl
  · next bloom hbloom =>
    unfold buildBloom at hbloom
    split at hbloom
    · cases hbloom
    · rw [← Option.some.inj hbloom]
      exact Bloom.contains_ofHashes _ _ _ (mem_map_of_mem hkey)

def addKey (keys : List (BitVec 64)) (key : BitVec 64) : List (BitVec 64) :=
  if key ∈ keys then keys else keys ++ [key]

theorem mem_addKey {other : BitVec 64} : key ∈ addKey keys other ↔ key ∈ keys ∨ key = other := by
  unfold addKey
  split <;> simp_all

theorem mem_foldl_addKey (keys more : List (BitVec 64)) (key : BitVec 64) :
    key ∈ more.foldl addKey keys ↔ key ∈ keys ∨ key ∈ more := by
  induction more generalizing keys with
  | nil => simp
  | cons other more ih => rw [foldl_cons, ih, mem_addKey, mem_cons, or_assoc]

theorem nodup_foldl_addKey {keys : List (BitVec 64)} (h : keys.Nodup) (more : List (BitVec 64)) :
    (more.foldl addKey keys).Nodup := by
  induction more generalizing keys with
  | nil => exact h
  | cons key more ih =>
    refine ih ?_
    unfold addKey
    split
    · exact h
    · next hmem => simpa using h.concat hmem

theorem length_le_foldl_addKey (keys more : List (BitVec 64)) :
    keys.length ≤ (more.foldl addKey keys).length := by
  induction more generalizing keys with
  | nil => exact le_rfl
  | cons key more ih =>
    refine le_trans ?_ (ih (addKey keys key))
    unfold addKey
    split <;> simp

theorem Keyed.insert (h : Keyed t keys) (hinsert : t.insert (key, val) = some t') :
    Keyed t' (addKey keys key) := by
  simp only [NeTable.insert, h.lookup] at hinsert
  by_cases hmem : key ∈ keys
  · simp only [hmem, if_true, Option.map_eq_some_iff] at hinsert
    obtain ⟨p, -, rfl⟩ := hinsert
    refine ⟨?_, ?_⟩ <;> simp only [addKey, hmem, if_true, length_set]
    exacts [h.index, h.length]
  · simp only [hmem, if_false, Option.some.injEq] at hinsert
    subst hinsert
    refine ⟨?_, ?_⟩ <;> simp only [addKey, hmem, if_false]
    · rw [mapIdx_concat, h.index, h.length]
    · simp [h.length]

theorem Keyed.run {pairs : List (BitVec 64 × BitVec 64)} (h : Keyed t keys)
    (hrun : pairs.foldlM NeTable.insert t = some t') :
    Keyed t' ((pairs.map Prod.fst).foldl addKey keys) := by
  induction pairs generalizing t keys with
  | nil => exact Option.some.inj hrun ▸ h
  | cons p pairs ih =>
    obtain ⟨mid, hmid, hrest⟩ := Option.bind_eq_some_iff.mp hrun
    exact ih (h.insert hmid) hrest

end NeTable

def NePair.Sums (p : NePair) (came : BitVec 64 → Prop) : Prop :=
  (p.n = 1 ∧ ∀ v, came v ↔ v = p.v1) ∨ (p.n = 2 ∧ came p.v1 ∧ ∃ v, came v ∧ v ≠ p.v1)

variable {came : BitVec 64 → Prop} {p : NePair}

theorem NePair.Sums.add (h : p.Sums came)
    (val : BitVec 64) : (p.add val).Sums fun v => came v ∨ v = val := by
  obtain ⟨hn, hcame⟩ | ⟨hn, hv1, v, hv, hne⟩ := h
  · by_cases hval : p.v1 = val
    · exact Or.inl (by simp [NePair.add, hval, hn, hcame])
    · exact Or.inr (by simp [NePair.add, hval, hn, hcame, Ne.symm hval])
  · exact Or.inr (by simpa [NePair.add, hn, hv1] using Or.inl ⟨v, hv, hne⟩)

theorem NePair.Sums.differs (h : p.Sums came)
    (x : BitVec 64) : 2 ≤ p.n ∨ p.v1 ≠ x ↔ ∃ v, came v ∧ v ≠ x := by
  obtain ⟨hn, hcame⟩ | ⟨hn, hv1, v, hv, hne⟩ := h
  · simp [hn, hcame]
  · have htwo : ∃ v, came v ∧ v ≠ x := by
      by_cases hx : p.v1 = x
      · exact ⟨v, hv, hx ▸ hne⟩
      · exact ⟨p.v1, hv1, hx⟩
    simpa [hn] using htwo

namespace NeTable

variable {t t' : NeTable} {keys : List (BitVec 64)} {key val x : BitVec 64}
  {seen : List (BitVec 64 × BitVec 64)}

structure Summed (t : NeTable) (keys : List (BitVec 64)) (seen : List (BitVec 64 × BitVec 64)) :
    Prop extends Keyed t keys where
  sums : ∀ key ∈ keys, ∃ p, t.nePairs[keys.idxOf key]? = some p ∧ p.Sums fun v => (key, v) ∈ seen
  came : ∀ p ∈ seen, p.1 ∈ keys

theorem Summed.pairAt (h : Summed t keys seen) (hfits : keys.length ≤ 2 ^ 31) (hmem : key ∈ keys) :
    ∃ p, t.pairAt (int32 (keys.idxOf key)) = some p ∧ p.Sums fun v => (key, v) ∈ seen := by
  obtain ⟨p, hp, hsums⟩ := h.sums key hmem
  have hlt := idxOf_lt_length_of_mem hmem
  rw [int32_of_lt (by omega)]
  exact ⟨p, by simpa [NeTable.pairAt] using hp, hsums⟩

theorem Summed.insert (h : Summed t keys seen) (hfits : keys.length ≤ 2 ^ 31) :
    ∃ t', t.insert (key, val) = some t' ∧ Summed t' (addKey keys key) (seen ++ [(key, val)]) := by
  have hcame : ∀ p ∈ seen ++ [(key, val)], p.1 ∈ addKey keys key := by
    refine forall_mem_append.mpr ⟨fun p hp => mem_addKey.mpr (.inl (h.came p hp)), ?_⟩
    exact forall_mem_singleton.mpr (mem_addKey.mpr (.inr rfl))
  by_cases hmem : key ∈ keys
  · obtain ⟨p, hp, hsums⟩ := h.pairAt hfits hmem
    have hlt := idxOf_lt_length_of_mem hmem
    have hslot : int32 (keys.idxOf key) = keys.idxOf key := int32_of_lt (by omega)
    have hinsert : t.insert (key, val) =
        some { t with nePairs := t.nePairs.set (keys.idxOf key) (p.add val) } := by
      rw [hslot] at hp
      rw [NeTable.insert, h.lookup, if_pos hmem]
      simp [hp, hslot]
    have hkeys : addKey keys key = keys := if_pos hmem
    refine ⟨_, hinsert, h.toKeyed.insert hinsert, ?_, hcame⟩
    rw [hkeys]
    intro other hother
    by_cases heq : other = key
    · subst heq
      refine ⟨_, getElem?_set_self (by rw [h.length]; exact hlt), ?_⟩
      simpa using hsums.add val
    · obtain ⟨q, hq, hqsums⟩ := h.sums other hother
      have hne : keys.idxOf key ≠ keys.idxOf other := by
        rw [Ne, idxOf_inj hmem]
        exact Ne.symm heq
      exact ⟨q, by simpa [getElem?_set_ne hne] using hq, by simpa [heq] using hqsums⟩
  · have hinsert : t.insert (key, val) =
        some ⟨t.intIdx ++ [(key, int32 t.nePairs.length)], t.nePairs ++ [⟨val, 0, 1⟩]⟩ := by
      simp [NeTable.insert, h.lookup, hmem]
    have hkeys : addKey keys key = keys ++ [key] := if_neg hmem
    refine ⟨_, hinsert, h.toKeyed.insert hinsert, ?_, hcame⟩
    rw [hkeys]
    intro other hother
    by_cases heq : other = key
    · subst heq
      refine ⟨⟨val, 0, 1⟩, by simp [idxOf_append_of_notMem hmem, ← h.length], Or.inl ⟨rfl, ?_⟩⟩
      have hnew : ∀ v, (other, v) ∉ seen := fun v hv => hmem (h.came _ hv)
      simp [hnew]
    · have hold : other ∈ keys := by simpa [heq] using hother
      obtain ⟨q, hq, hqsums⟩ := h.sums other hold
      have hlt := idxOf_lt_length_of_mem hold
      refine ⟨q, ?_, by simpa [heq] using hqsums⟩
      rw [idxOf_append_of_mem hold, getElem?_append_left (by rw [h.length]; exact hlt)]
      exact hq

theorem Summed.run {pairs : List (BitVec 64 × BitVec 64)} (h : Summed t keys seen)
    (hfits : ((pairs.map Prod.fst).foldl addKey keys).length ≤ 2 ^ 31) :
    ∃ t', pairs.foldlM NeTable.insert t = some t' ∧
      Summed t' ((pairs.map Prod.fst).foldl addKey keys) (seen ++ pairs) := by
  induction pairs generalizing t keys seen with
  | nil => exact ⟨t, rfl, by simpa using h⟩
  | cons p pairs ih =>
    have hle := length_le_foldl_addKey keys ((p :: pairs).map Prod.fst)
    obtain ⟨mid, hmid, hsummed⟩ := h.insert (le_trans hle hfits)
    obtain ⟨t', hrun, hend⟩ := ih hsummed hfits
    exact ⟨t', by rw [foldlM_cons, hmid]; exact hrun, by simpa using hend⟩

theorem Summed.keeps {build : List NeBatch} (h : Summed t keys (storedPairs build))
    (hfits : keys.length ≤ 2 ^ 31) (isSemi : Bool) (b : NeBatch) (row : Nat) :
    t.keeps isSemi b row = some (neExists build b row == isSemi) := by
  unfold NeTable.keeps
  match hpair : b.pair row with
  | none =>
    have hfalse : neExists build b row = false := by simp [neExists, neMatches, hpair]
    simp [hfalse]
  | some (key, x) =>
    simp only [h.lookup]
    by_cases hmem : key ∈ keys
    · obtain ⟨p, hp, hsums⟩ := h.pairAt hfits hmem
      have hexists : (decide (2 ≤ p.n) || p.v1 != x) = neExists build b row := by
        rw [Bool.eq_iff_iff, neExists_iff hpair, ← hsums.differs x]
        simp
      simp [hmem, h.mayContain hmem, hp, hexists]
    · have hfalse : neExists build b row = false := by
        rw [← Bool.not_eq_true, neExists_iff hpair]
        rintro ⟨v, hv, -⟩
        exact hmem (h.came _ hv)
      simp [hmem, hfalse]

theorem Keyed.keeps_overflow (h : Keyed t keys) (hmem : key ∈ keys)
    (hslot : int32 (keys.idxOf key) < 0)
    (hpair : b.pair row = some (key, x)) (isSemi : Bool) : t.keeps isSemi b row = none := by
  simp [NeTable.keeps, hpair, h.mayContain hmem, h.lookup, hmem, NeTable.pairAt, hslot]

end NeTable

variable {f : Nat → Bool}

theorem foldlM_keeps {keeps : Nat → Option Bool}
    (h : ∀ row, keeps row = some (f row)) (rows sel : List Nat) :
    rows.foldlM (fun sel row => (keeps row).map fun keep => if keep then sel ++ [row] else sel) sel =
      some (sel ++ rows.filter f) := by
  induction rows generalizing sel with
  | nil => simp
  | cons row rows ih =>
    rw [foldlM_cons, h, Option.map_some, Option.bind_eq_bind, Option.bind_some, ih]
    by_cases hrow : f row <;> simp [hrow]

theorem probe_filter {t : NeTable} {isSemi : Bool}
    (h : ∀ row, t.keeps isSemi b row = some (f row)) :
    probeNESemiAnti (some t) isSemi b = some (b.rows.filter f) :=
  foldlM_keeps h b.rows []

theorem probe_getD (table : Option NeTable) (isSemi : Bool) (b : NeBatch) :
    probeNESemiAnti table isSemi b = probeNESemiAnti (some (table.getD ⟨[], []⟩)) isSemi b := by
  match table with
  | some t => rfl
  | none =>
    have hkeeps : ∀ row, NeTable.keeps ⟨[], []⟩ isSemi b row = some !isSemi := by
      intro row
      simp only [NeTable.keeps]
      split <;> simp
    rw [Option.getD_none, probe_filter hkeeps]
    cases isSemi <;> simp [probeNESemiAnti]

theorem buildNE_getD (build : List NeBatch) :
    (buildNE build).map (·.getD ⟨[], []⟩) =
      (storedPairs build).foldlM NeTable.insert ⟨[], []⟩ := by
  have hfold : ∀ (build : List NeBatch) (table : Option NeTable),
      (build.foldlM addBatch table).map (·.getD ⟨[], []⟩) =
        (storedPairs build).foldlM NeTable.insert (table.getD ⟨[], []⟩) := by
    intro build
    induction build with
    | nil => intro table; rfl
    | cons b build ih =>
      intro table
      rw [storedPairs, flatMap_cons, foldlM_append, foldlM_cons]
      unfold addBatch NeTable.insertNEBatch
      cases (b.rows.filterMap b.pair).foldlM NeTable.insert
        (table.getD ⟨[], []⟩) with
      | none => rfl
      | some t => exact ih (some t)
  exact hfold build none

def distinctKeys (build : List NeBatch) : Nat :=
  ((storedPairs build).map Prod.fst).dedup.length

variable {build : List NeBatch}

def builtKeys (build : List NeBatch) : List (BitVec 64) :=
  ((storedPairs build).map Prod.fst).foldl NeTable.addKey []

theorem nodup_builtKeys : (builtKeys build).Nodup :=
  NeTable.nodup_foldl_addKey nodup_nil _

theorem length_builtKeys : (builtKeys build).length = distinctKeys build := by
  refine ((perm_ext_iff_of_nodup nodup_builtKeys (nodup_dedup _)).mpr fun key => ?_).length_eq
  rw [builtKeys, NeTable.mem_foldl_addKey]
  simp

theorem answers_of_fits (hfits : distinctKeys build ≤ 2 ^ 31) : AnswersNotEqual build := by
  have hstart : NeTable.Summed ⟨[], []⟩ [] [] := ⟨⟨rfl, rfl⟩, by simp, by simp⟩
  rw [← length_builtKeys] at hfits
  obtain ⟨t, hrun, hsummed⟩ := hstart.run hfits
  rw [← buildNE_getD, Option.map_eq_some_iff] at hrun
  obtain ⟨table, htable, rfl⟩ := hrun
  have hkeeps := hsummed.keeps hfits
  refine ⟨table, htable, fun b => ⟨?_, ?_⟩⟩ <;> rw [probe_getD]
  · exact probe_filter fun row => by simpa using hkeeps true b row
  · exact probe_filter fun row => by simpa using hkeeps false b row

theorem fits_of_answers (h : AnswersNotEqual build) : distinctKeys build ≤ 2 ^ 31 := by
  obtain ⟨table, htable, hprobe⟩ := h
  have hrun := buildNE_getD build
  rw [htable] at hrun
  have hstart : NeTable.Keyed ⟨[], []⟩ [] := ⟨rfl, rfl⟩
  have hkeyed : NeTable.Keyed _ (builtKeys build) := hstart.run hrun.symm
  rw [← length_builtKeys]
  by_contra hmany
  have hlt : 2 ^ 31 < (builtKeys build).length := by omega
  obtain ⟨key, hmem, hslot⟩ :
      ∃ key ∈ builtKeys build, int32 ((builtKeys build).idxOf key) < 0 := by
    refine ⟨_, getElem_mem hlt, ?_⟩
    rw [nodup_builtKeys.idxOf_getElem]
    decide
  let b : NeBatch := ⟨1, none, fun _ => some key, fun _ => some 0⟩
  have hkeeps : NeTable.keeps _ true b 0 = none := hkeyed.keeps_overflow hmem hslot rfl true
  have hsel := (hprobe b).1
  have hrows : b.rows = [0] := rfl
  rw [probe_getD, probeNESemiAnti, hrows, foldlM_cons, NeTable.check, hkeeps] at hsel
  cases hsel

theorem answersNotEqual_iff (build : List NeBatch) :
    AnswersNotEqual build ↔ distinctKeys build ≤ 2 ^ 31 :=
  ⟨fits_of_answers, answers_of_fits⟩

-- Batch b of k rows, with the next k keys.
def countingBatch (k b : Nat) : NeBatch :=
  ⟨k, none, fun i => some (BitVec.ofNat 64 (b * k + i)), fun _ => some 0⟩

private theorem storedKeys_counting (k m : Nat) :
    (storedPairs ((range m).map (countingBatch k))).map Prod.fst = (range (m * k)).map (BitVec.ofNat 64) := by
  induction m with
  | zero => simp [storedPairs]
  | succ m ih =>
    have hlast : ((countingBatch k m).rows.filterMap (countingBatch k m).pair).map Prod.fst =
        (range k).map fun i => BitVec.ofNat 64 (m * k + i) := by
      simp [countingBatch, NeBatch.rows, map_filterMap, NeBatch.pair]
    rw [storedPairs] at ih ⊢
    rw [range_succ, map_append, flatMap_append, map_append, ih, Nat.succ_mul, range_add, map_append,
      map_map, map_singleton, flatMap_singleton, hlast]
    rfl

private theorem distinctKeys_counting {k m : Nat} (h : m * k ≤ 2 ^ 64) :
    distinctKeys ((range m).map (countingBatch k)) = m * k := by
  have hnodup : ((range (m * k)).map (BitVec.ofNat 64)).Nodup := by
    refine nodup_range.map_on fun i hi j hj h => ?_
    rw [mem_range] at hi hj
    have hnat := congrArg BitVec.toNat h
    rw [BitVec.toNat_ofNat, BitVec.toNat_ofNat, Nat.mod_eq_of_lt (by omega),
      Nat.mod_eq_of_lt (by omega)] at hnat
    exact hnat
  rw [distinctKeys, storedKeys_counting, hnodup.dedup, length_map, length_range]

theorem slot_overflow_panics : ¬ AnswersNotEqual ((range (2 ^ 20 + 1)).map (countingBatch (2 ^ 11))) := by
  intro h
  have hfits := fits_of_answers h
  rw [distinctKeys_counting (by decide)] at hfits
  omega

end Wadjet.Engine.Exec
