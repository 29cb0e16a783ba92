import Wadjet.Engine.Exec.IntHashHistory

namespace Wadjet.Engine.Exec

open Wadjet.Data IntSlots List Function Option

def int32 (n : Int) : Int :=
  n.bmod (2 ^ 32)

namespace IntIndex

-- The flat table tests its load after a row that made a group, a bucket inside
-- the insertion.
def getOrInsert (key : BitVec 64) (val : Int) : IntIndex → Option ((Int × Bool) × IntIndex)
  | flat t => (t.getOrInsert key val).map fun r => (r.1, flat r.2)
  | twoLevel t => (t.getOrInsert key val).map fun r => (r.1, twoLevel r.2)

end IntIndex

-- The free group ids stand with the one to be taken first.
structure IntGroups where
  index : IntIndex
  freeGroupIDs : List Int
  numIntGroups : Nat
  intKeys : List (BitVec 64)

namespace IntGroups

def start (hint : Nat) : IntGroups :=
  ⟨.flat (newIntHashTable hint), [], 0, []⟩

variable (s : IntGroups)

def newIdx : Int :=
  match s.freeGroupIDs with
  | id :: _ => id
  | [] => int32 s.numIntGroups

def claim (key : BitVec 64) : IntGroups :=
  match s.freeGroupIDs with
  | id :: rest => { s with freeGroupIDs := rest, intKeys := s.intKeys.set id.toNat key }
  | [] => { s with numIntGroups := s.numIntGroups + 1, intKeys := s.intKeys ++ [key] }

-- The group index of a row, with a NULL key as none. The row of a NULL key is
-- left to the generic path.
def groupRow : Option (BitVec 64) → Option (Int × IntGroups)
  | none => some (-1, s)
  | some key =>
    (s.index.getOrInsert key s.newIdx).map fun r =>
      if r.1.2 then (r.1.1, { s with index := r.2 })
      else (s.newIdx, { s.claim key with index := r.2 })

def consumeBatchIntGroup (rows : List (Option (BitVec 64))) : Option (List Int × IntGroups) :=
  answersOf groupRow s rows

-- The size of the table and the new groups of the batch decide on the conversion.
def maybeConvertIntIndex (convert : Bool) : Option IntGroups :=
  match s.index, convert with
  | .flat t, true => (IntTwoLevelTable.convert t).map fun t => { s with index := .twoLevel t }
  | _, _ => some s

structure Batch where
  rows : List (Option (BitVec 64))
  convert : Bool
deriving DecidableEq

def consume (b : Batch) : Option (List Int × IntGroups) :=
  (s.consumeBatchIntGroup b.rows).bind fun r =>
    (r.2.maybeConvertIntIndex b.convert).map fun s => (r.1, s)

def groupIds (hint : Nat) (batches : List Batch) : Option (List Int) :=
  (answersOf consume (start hint) batches).map fun r => r.1.flatten

end IntGroups

def SameGroups (keys : List (Option (BitVec 64))) (ids : List Int) : Prop :=
  ids.length = keys.length ∧ ∀ i j, i < keys.length → j < keys.length →
    (ids[i]? = ids[j]? ↔ keys[i]? = keys[j]?)

def GroupsByKey (hint : Nat) (batches : List IntGroups.Batch) : Prop :=
  ∃ ids, IntGroups.groupIds hint batches = some ids ∧
    SameGroups (batches.flatMap IntGroups.Batch.rows) ids

namespace IntIndex

def Holds (m : IntMap) : IntIndex → Prop
  | flat t => ∃ lost, Flat t m lost
  | twoLevel t => ∃ losts, IntTwoLevelTable.Bucketed t m losts

variable {index : IntIndex} {m : IntMap} {key : BitVec 64} {val : Int}

theorem Holds.finite (h : index.Holds m) : {k | m k ≠ none}.Finite := by
  cases index with
  | flat t =>
    obtain ⟨lost, h⟩ := h
    exact h.sound.rep.finite
  | twoLevel t =>
    obtain ⟨losts, h⟩ := h
    exact h.finite

theorem Holds.getOrInsert (h : index.Holds m) (hkey : key ≠ intHashEmpty)
    (hcount : keyCount m < 2 ^ 35) :
    ∃ index', index.getOrInsert key val = some ((m.getOrInsert key val).1, index') ∧
      index'.Holds (m.getOrInsert key val).2 := by
  cases index with
  | flat t =>
    obtain ⟨lost, h⟩ := h
    obtain ⟨t', hop, h'⟩ := @Flat.getOrInsert _ _ _ key val h hkey
    exact ⟨flat t', by rw [IntIndex.getOrInsert, hop, map_some], lost, h'⟩
  | twoLevel t =>
    obtain ⟨losts, h⟩ := h
    obtain ⟨t', hop, h'⟩ := @IntTwoLevelTable.Bucketed.getOrInsert _ _ _ key val h hkey hcount
    exact ⟨twoLevel t', by rw [IntIndex.getOrInsert, hop, map_some], losts, h'⟩

theorem Holds.getOrInsert_reserved (h : index.Holds m) (hcount : keyCount m < 2 ^ 35) :
    ∃ index', index.getOrInsert intHashEmpty val = some ((val, false), index') ∧
      index'.Holds m := by
  cases index with
  | flat t =>
    obtain ⟨lost, h⟩ := h
    obtain ⟨⟨answer, t1⟩, t', hop, rfl, hgrow, h'⟩ := @Flat.getOrInsertNoGrow_reserved _ _ _ val h
    refine ⟨flat t', ?_, lost + 1, h'⟩
    rw [IntIndex.getOrInsert, IntSlots.getOrInsert, hop, bind_some, growAfter,
      if_neg Bool.false_ne_true, hgrow, map_some, map_some]
  | twoLevel t =>
    obtain ⟨losts, h⟩ := h
    obtain ⟨t', losts', hop, h'⟩ :=
      @IntTwoLevelTable.Bucketed.getOrInsert_reserved _ _ _ val h hcount
    exact ⟨twoLevel t', by rw [IntIndex.getOrInsert, hop, map_some], losts', h'⟩

end IntIndex

namespace IntGroups

-- What a row asks a group for: its key, or for the reserved key its own number.
abbrev Token := BitVec 64 ⊕ Nat

def token (n : Nat) (key : BitVec 64) : Token :=
  if key = intHashEmpty then .inr n else .inl key

def tokenKey : Token → BitVec 64
  | .inl key => key
  | .inr _ => intHashEmpty

def tokens (n : Nat) : List (Option (BitVec 64)) → List Token
  | [] => []
  | row :: rows => (row.map (token n)).toList ++ tokens (n + 1) rows

theorem tokens_append (n : Nat) (rows rows' : List (Option (BitVec 64))) :
    tokens n (rows ++ rows') = tokens n rows ++ tokens (n + rows.length) rows' := by
  induction rows generalizing n with
  | nil => rfl
  | cons row rows ih =>
    rw [cons_append, tokens, tokens, ih, append_assoc, length_cons,
      show n + 1 + rows.length = n + (rows.length + 1) by omega]

theorem tokenKey_token (n : Nat) (key : BitVec 64) : tokenKey (token n key) = key := by
  unfold token
  by_cases hkey : key = intHashEmpty
  · rw [hkey]
    rfl
  · rw [if_neg hkey]
    rfl

-- How many of the tokens have a group.
def made (all : Finset Token) (given : Token → Option Int) : Nat :=
  (all.filter fun a => (given a).isSome).card

structure Grouped (all : Finset Token) (s : IntGroups) (given : Token → Option Int) (n : Nat) : Prop where
  holds : s.index.Holds fun key => given (.inl key)
  injective : ∀ a b id, given a = some id → given b = some id → a = b
  nonneg : ∀ a id, given a = some id → 0 ≤ id
  below : ∀ a id, given a = some id → id < s.numIntGroups
  taken : ∀ a id, given a = some id → id ∉ s.freeGroupIDs
  keyed : ∀ a id, given a = some id → s.intKeys[id.toNat]? = some (tokenKey a)
  free : s.freeGroupIDs.Nodup
  freed : ∀ id ∈ s.freeGroupIDs, 0 ≤ id ∧ id < s.numIntGroups
  keys : s.intKeys.length = s.numIntGroups
  count : keyCount (fun key => given (.inl key)) ≤ made all given
  groups : s.numIntGroups ≤ made all given
  fresh : ∀ i, n ≤ i → given (.inr i) = none

variable {all : Finset Token} {s : IntGroups} {given : Token → Option Int} {n : Nat} {key : BitVec 64}

theorem made_le : made all given ≤ all.card :=
  Finset.card_filter_le _ _

theorem made_update {a : Token} (ha : a ∈ all) (hnone : given a = none) (id : Int) :
    made all (update given a (some id)) = made all given + 1 := by
  have hinsert : (all.filter fun b => (update given a (some id) b).isSome) =
      insert a (all.filter fun b => (given b).isSome) := by
    ext b
    by_cases hb : b = a
    · simp [hb, ha]
    · simp [hb]
  rw [made, hinsert, Finset.card_insert_of_notMem (by simp [hnone])]
  rfl

theorem Grouped.le {n' : Nat} (h : Grouped all s given n) (hn : n ≤ n') : Grouped all s given n' :=
  { h with fresh := fun i hi => h.fresh i (hn.trans hi) }

theorem int32_of_lt {n : Nat} (h : n < 2 ^ 31) : int32 n = n := by
  unfold int32
  rw [Int.bmod_eq_of_le] <;> omega

theorem newIdx_nil (hfree : s.freeGroupIDs = []) : s.newIdx = int32 s.numIntGroups := by
  rw [newIdx, hfree]

theorem newIdx_cons {id : Int} {rest : List Int} (hfree : s.freeGroupIDs = id :: rest) :
    s.newIdx = id := by
  rw [newIdx, hfree]

theorem Grouped.numIntGroups_lt (h : Grouped all s given n) (hall : all.card < 2 ^ 31) :
    s.numIntGroups < 2 ^ 31 :=
  (h.groups.trans made_le).trans_lt hall

theorem newIdx_free (h : Grouped all s given n) (hall : all.card < 2 ^ 31) (a : Token) :
    given a ≠ some s.newIdx := by
  intro hgiven
  cases hfree : s.freeGroupIDs with
  | nil =>
    have hlt := h.below a _ hgiven
    rw [newIdx_nil hfree, int32_of_lt (h.numIntGroups_lt hall)] at hlt
    omega
  | cons id rest =>
    rw [newIdx_cons hfree] at hgiven
    exact h.taken a id hgiven (by rw [hfree]; exact mem_cons_self)

structure Claims (s s' : IntGroups) (key : BitVec 64) : Prop where
  nonneg : 0 ≤ s.newIdx
  below : s.newIdx < s'.numIntGroups
  taken : s.newIdx ∉ s'.freeGroupIDs
  keyed : s'.intKeys[s.newIdx.toNat]? = some key
  others : ∀ id : Int, 0 ≤ id → id < s.numIntGroups → id ≠ s.newIdx →
    s'.intKeys[id.toNat]? = s.intKeys[id.toNat]?
  free : s'.freeGroupIDs.Nodup
  freed : ∀ id ∈ s'.freeGroupIDs, id ∈ s.freeGroupIDs
  keys : s'.intKeys.length = s'.numIntGroups
  more : s.numIntGroups ≤ s'.numIntGroups
  one : s'.numIntGroups ≤ s.numIntGroups + 1

theorem Grouped.claims (h : Grouped all s given n) (hall : all.card < 2 ^ 31) :
    Claims s (s.claim key) key := by
  have hkeys := h.keys
  cases hfree : s.freeGroupIDs with
  | nil =>
    have hidx : s.newIdx = s.numIntGroups := by
      rw [newIdx_nil hfree, int32_of_lt (h.numIntGroups_lt hall)]
    have hclaim : s.claim key = { s with
        numIntGroups := s.numIntGroups + 1, intKeys := s.intKeys ++ [key] } := by
      rw [claim, hfree]
    rw [hclaim]
    refine ⟨?_, ?_, ?_, ?_, ?_, ?_, ?_, ?_, ?_, ?_⟩
    · omega
    · dsimp only
      omega
    · simp [hfree]
    · simp [hidx, ← hkeys]
    · intro id h0 hlt _
      exact getElem?_append_left (by omega)
    · simp [hfree]
    · exact fun _ hid => hid
    · simp [hkeys]
    · exact Nat.le_succ _
    · exact le_rfl
  | cons id rest =>
    have hidx := newIdx_cons hfree
    have hclaim : s.claim key = { s with
        freeGroupIDs := rest, intKeys := s.intKeys.set id.toNat key } := by
      rw [claim, hfree]
    have hnodup := h.free
    rw [hfree, nodup_cons] at hnodup
    obtain ⟨h0, hlt⟩ := h.freed id (by rw [hfree]; exact mem_cons_self)
    rw [hclaim]
    refine ⟨?_, ?_, ?_, ?_, ?_, ?_, ?_, ?_, ?_, ?_⟩
    · omega
    · dsimp only
      omega
    · rw [hidx]
      exact hnodup.1
    · rw [hidx]
      exact getElem?_set_self (by omega)
    · intro id' h0' _ hne
      exact getElem?_set_ne (by omega)
    · exact hnodup.2
    · intro id' hid'
      rw [hfree]
      exact mem_cons_of_mem id hid'
    · simp [hkeys]
    · exact le_rfl
    · exact Nat.le_succ _

theorem Grouped.give (h : Grouped all s given n) (hcard : all.card < 2 ^ 31) {a : Token} {index : IntIndex}
    (hkey : tokenKey a = key) (hmem : a ∈ all) (hnone : given a = none) (hfresh : ∀ i, n < i → a ≠ .inr i)
    (hcount : keyCount (fun k => update given a (some s.newIdx) (.inl k)) ≤ made all given + 1)
    (hholds : index.Holds fun k => update given a (some s.newIdx) (.inl k)) :
    Grouped all { s.claim key with index := index } (update given a (some s.newIdx)) (n + 1) := by
  have hc := @Grouped.claims all s given n key h hcard
  have hmade := made_update hmem hnone s.newIdx
  have hall : ∀ {P : Token → Int → Prop}, P a s.newIdx → (∀ b id, given b = some id → P b id) →
      ∀ b id, update given a (some s.newIdx) b = some id → P b id := by
    intro P hnew hold
    refine (forall_update_iff given (p := fun b o => ∀ id, o = some id → P b id)).mpr
      ⟨fun id hid => ?_, fun b _ => hold b⟩
    exact some.inj hid ▸ hnew
  refine ⟨hholds, ?_, hall hc.nonneg h.nonneg, ?_, ?_, ?_, hc.free, ?_, hc.keys, hcount.trans hmade.ge, ?_, ?_⟩
  · intro b c id hb hc
    simp only [update_apply] at hb hc
    split_ifs at hb hc with hba hca hca
    · rw [hba, hca]
    · exact absurd (hc.trans hb.symm) (newIdx_free h hcard c)
    · exact absurd (hb.trans hc.symm) (newIdx_free h hcard b)
    · exact h.injective b c id hb hc
  · exact hall hc.below fun b id hb => (h.below b id hb).trans_le (Int.ofNat_le.mpr hc.more)
  · exact hall hc.taken fun b id hb hid => h.taken b id hb (hc.freed id hid)
  · refine hall (hkey ▸ hc.keyed) fun b id hb => ?_
    rw [← h.keyed b id hb]
    refine hc.others id (h.nonneg b id hb) (h.below b id hb) ?_
    rintro rfl
    exact newIdx_free h hcard b hb
  · intro id hid
    obtain ⟨h0, hlt⟩ := h.freed id (hc.freed id hid)
    exact ⟨h0, hlt.trans_le (Int.ofNat_le.mpr hc.more)⟩
  · exact (hc.one.trans (Nat.succ_le_succ h.groups)).trans hmade.ge
  · intro i hi
    rw [update_of_ne (hfresh i hi).symm]
    exact h.fresh i (Nat.le_of_succ_le hi)

def Extends (given given' : Token → Option Int) : Prop :=
  ∀ a id, given a = some id → given' a = some id

theorem update_extends {a : Token} {id : Int} (h : given a = none) :
    Extends given (update given a (some id)) := by
  intro b id' hb
  rw [update_of_ne]
  · exact hb
  · rintro rfl
    rw [h] at hb
    cases hb

structure Outputs (given : Token → Option Int) (n : Nat) (rows : List (Option (BitVec 64)))
    (ids : List Int) : Prop where
  length : ids.length = rows.length
  null : ∀ i : Nat, rows[i]? = some none → ids[i]? = some (-1)
  key : ∀ (i : Nat) key, rows[i]? = some (some key) →
    ∃ id, ids[i]? = some id ∧ given (token (n + i) key) = some id

theorem outputs_row {row : Option (BitVec 64)} {id : Int} (hnull : row = none → id = -1)
    (hkey : ∀ key, row = some key → given (token n key) = some id) :
    Outputs given n [row] [id] := by
  refine ⟨rfl, ?_, ?_⟩
  · intro i hi
    cases i with
    | zero => rw [hnull (some.inj hi)]; rfl
    | succ i => cases hi
  · intro i key hi
    cases i with
    | zero => exact ⟨id, rfl, hkey key (some.inj hi)⟩
    | succ i => cases hi

theorem outputs_key {id : Int} (h : given (token n key) = some id) :
    Outputs given n [some key] [id] := by
  refine outputs_row nofun fun key' hrow => ?_
  rwa [← some.inj hrow]

theorem Outputs.extend {given' : Token → Option Int} {rows : List (Option (BitVec 64))}
    {ids : List Int} (h : Outputs given n rows ids) (hext : Extends given given') :
    Outputs given' n rows ids := by
  refine ⟨h.length, h.null, ?_⟩
  intro i key hi
  obtain ⟨id, hid, hgiven⟩ := h.key i key hi
  exact ⟨id, hid, hext _ _ hgiven⟩

theorem Outputs.append {rows rows' : List (Option (BitVec 64))} {ids ids' : List Int}
    (h : Outputs given n rows ids) (h' : Outputs given (n + rows.length) rows' ids') :
    Outputs given n (rows ++ rows') (ids ++ ids') := by
  have hlength := h.length
  refine ⟨by rw [length_append, length_append, h.length, h'.length], ?_, ?_⟩
  · intro i hi
    by_cases hlt : i < rows.length
    · rw [getElem?_append_left hlt] at hi
      rw [getElem?_append_left (by omega)]
      exact h.null i hi
    · rw [getElem?_append_right (by omega)] at hi
      rw [getElem?_append_right (by omega), hlength]
      exact h'.null _ hi
  · intro i key hi
    by_cases hlt : i < rows.length
    · rw [getElem?_append_left hlt] at hi
      rw [getElem?_append_left (by omega)]
      exact h.key i key hi
    · rw [getElem?_append_right (by omega)] at hi
      rw [getElem?_append_right (by omega), hlength]
      have hout := h'.key _ key hi
      rwa [show n + rows.length + (i - rows.length) = n + i by omega] at hout

section

variable (h : Grouped all s given n) (hcard : all.card < 2 ^ 31)

include h hcard

theorem Grouped.groupRow (row : Option (BitVec 64)) (hrow : ∀ key ∈ row, token n key ∈ all) :
    ∃ id s' given', s.groupRow row = some (id, s') ∧ Grouped all s' given' (n + 1) ∧
      Extends given given' ∧ Outputs given' n [row] [id] := by
  have hcount := h.count.trans made_le
  have hfits : keyCount (fun key => given (.inl key)) < 2 ^ 35 := by omega
  cases row with
  | none =>
    exact ⟨-1, s, given, rfl, h.le (Nat.le_succ n), fun _ _ ha => ha,
      outputs_row (fun _ => rfl) nofun⟩
  | some key =>
    by_cases hkey : key = intHashEmpty
    · -- the reserved key: always a new group, the map as it was
      subst hkey
      obtain ⟨index, hop, hholds⟩ :=
        @IntIndex.Holds.getOrInsert_reserved _ _ s.newIdx h.holds hfits
      have hnone := h.fresh n le_rfl
      have hsame : (fun k => update given (.inr n) (some s.newIdx) (.inl k)) =
          fun k => given (.inl k) := by
        funext k
        exact update_of_ne Sum.inl_ne_inr _ _
      refine ⟨s.newIdx, _, _, ?_, @Grouped.give all s given n intHashEmpty h hcard (.inr n) index
        rfl (hrow _ rfl) hnone ?_ (by rw [hsame]; exact h.count.trans (Nat.le_succ _))
            (by rw [hsame]; exact hholds), update_extends hnone,
        outputs_key (by rw [token, if_pos rfl, update_self])⟩
      · rw [IntGroups.groupRow, hop, map_some, if_neg Bool.false_ne_true]
      · intro i hi heq
        exact absurd (Sum.inr.inj heq) (ne_of_lt hi)
    · have htoken : token n key = .inl key := if_neg hkey
      obtain ⟨index, hop, hholds⟩ :=
        @IntIndex.Holds.getOrInsert _ _ key s.newIdx h.holds hkey hfits
      cases hm : given (.inl key) with
      | some id =>
        rw [@IntMap.getOrInsert_of_some _ (fun k => given (.inl k)) key id hm] at hop hholds
        refine ⟨id, { s with index := index }, given, ?_, ?_, fun _ _ ha => ha,
          outputs_key (htoken ▸ hm)⟩
        · rw [IntGroups.groupRow, hop, map_some, if_pos rfl]
        · exact { h.le (Nat.le_succ n) with holds := hholds }
      | none =>
        rw [@IntMap.getOrInsert_of_none _ (fun k => given (.inl k)) key hm] at hop hholds
        have hsame : (fun k => update given (.inl key) (some s.newIdx) (.inl k)) =
            update (fun k => given (.inl k)) key (some s.newIdx) := by
          funext k
          by_cases hk : k = key
          · subst hk
            rw [update_self, update_self]
          · rw [update_of_ne hk, update_of_ne (by simpa using hk)]
        refine ⟨s.newIdx, _, _, ?_, @Grouped.give all s given n key h hcard (.inl key) index rfl
          (htoken ▸ hrow key rfl) hm ?_ ?_ (by rw [hsame]; exact hholds), update_extends hm,
              outputs_key (by rw [htoken, update_self])⟩
        · rw [IntGroups.groupRow, hop, map_some, if_neg Bool.false_ne_true]
        · exact fun i _ => nofun
        · rw [hsame, @keyCount_store _ _ (fun k => given (.inl k)) key _ h.holds.finite _ hm]
          exact Nat.succ_le_succ h.count

theorem Grouped.consumeBatchIntGroup (rows : List (Option (BitVec 64)))
    (hrows : ∀ a ∈ tokens n rows, a ∈ all) :
    ∃ ids s' given', s.consumeBatchIntGroup rows = some (ids, s') ∧
      Grouped all s' given' (n + rows.length) ∧ Extends given given' ∧ Outputs given' n rows ids := by
  induction rows generalizing s given n with
  | nil => exact ⟨[], s, given, rfl, h, fun _ _ ha => ha, rfl, nofun, nofun⟩
  | cons row rows ih =>
    rw [length_cons]
    obtain ⟨hfirst, hrest⟩ := forall_mem_append.mp hrows
    obtain ⟨id, s1, given1, hrow, h1, hext1, hout1⟩ := h.groupRow hcard row fun key hkey =>
      hfirst _ (mem_toList.mpr (mem_map_of_mem _ hkey))
    obtain ⟨ids, s2, given2, hrows, h2, hext2, hout2⟩ := ih h1 hrest
    refine ⟨id :: ids, s2, given2, answersOf_cons_eq_some.mpr ⟨s1, hrow, hrows⟩, ?_,
      fun a id ha => hext2 a id (hext1 a id ha), (hout1.extend hext2).append hout2⟩
    rwa [show n + (rows.length + 1) = n + 1 + rows.length by omega]

theorem Grouped.maybeConvertIntIndex (convert : Bool) :
    ∃ s', s.maybeConvertIntIndex convert = some s' ∧ Grouped all s' given n := by
  have hcount := h.count.trans made_le
  unfold IntGroups.maybeConvertIntIndex
  cases hindex : s.index with
  | twoLevel t => exact ⟨s, rfl, h⟩
  | flat t =>
    cases convert with
    | false => exact ⟨s, rfl, h⟩
    | true =>
      have hholds := h.holds
      rw [hindex] at hholds
      obtain ⟨lost, hflat⟩ := hholds
      obtain ⟨t', hconvert, ht'⟩ :=
        IntTwoLevelTable.convert_bucketed hflat.sound (by omega)
      exact ⟨{ s with index := .twoLevel t' }, by
        dsimp only
        rw [hconvert, map_some],
        { h with holds := ⟨_, ht'⟩ }⟩

theorem Grouped.consumeAll (batches : List Batch)
    (hrows : ∀ a ∈ tokens n (batches.flatMap Batch.rows), a ∈ all) :
    ∃ ids s' given', answersOf consume s batches = some (ids, s') ∧
      Grouped all s' given' (n + (batches.flatMap Batch.rows).length) ∧ Extends given given' ∧
      Outputs given' n (batches.flatMap Batch.rows) ids.flatten := by
  induction batches generalizing s given n with
  | nil => exact ⟨[], s, given, rfl, h, fun _ _ ha => ha, rfl, nofun, nofun⟩
  | cons b batches ih =>
    rw [flatMap_cons, tokens_append] at hrows
    rw [flatMap_cons, length_append]
    obtain ⟨hfirst, hrest⟩ := forall_mem_append.mp hrows
    obtain ⟨ids1, s1, given1, hrows, h1, hext1, hout1⟩ := h.consumeBatchIntGroup hcard b.rows hfirst
    obtain ⟨s2, hconvert, h2⟩ := h1.maybeConvertIntIndex hcard b.convert
    obtain ⟨ids, s3, given3, hrest, h3, hext3, hout3⟩ := ih h2 hrest
    have hconsume : s.consume b = some (ids1, s2) := by
      rw [consume, hrows, bind_some, hconvert, map_some]
    refine ⟨ids1 :: ids, s3, given3, answersOf_cons_eq_some.mpr ⟨s2, hconsume, hrest⟩, ?_,
      fun a id ha => hext3 a id (hext1 a id ha), (hout1.extend hext3).append hout3⟩
    rwa [← add_assoc]

end

theorem start_grouped (hint : Nat) : Grouped all (start hint) (fun _ => none) 0 where
  holds := ⟨0, newIntHashTable_flat hint⟩
  injective := nofun
  nonneg := nofun
  below := nofun
  taken := nofun
  keyed := nofun
  free := nodup_nil
  freed := nofun
  keys := rfl
  count := by simp [keyCount]
  groups := Nat.zero_le _
  fresh := fun _ _ => rfl

end IntGroups

def OccursOnce (key : BitVec 64) (rows : List (Option (BitVec 64))) : Prop :=
  ∀ i j : Nat, rows[i]? = some (some key) → rows[j]? = some (some key) → i = j

open IntGroups in
theorem sameGroups_iff {given : Token → Option Int} {rows : List (Option (BitVec 64))}
    {ids : List Int} (hout : Outputs given 0 rows ids)
    (hinj : ∀ a b id, given a = some id → given b = some id → a = b)
    (hnonneg : ∀ a id, given a = some id → 0 ≤ id) :
    SameGroups rows ids ↔ OccursOnce intHashEmpty rows := by
  have htoken : ∀ (i j : Nat) k k', rows[i]? = some (some k) → rows[j]? = some (some k') →
      (ids[i]? = ids[j]? ↔ token i k = token j k') := by
    intro i j k k' hi hj
    obtain ⟨a, ha, hgiven⟩ := hout.key i k hi
    obtain ⟨b, hb, hgiven'⟩ := hout.key j k' hj
    rw [zero_add] at hgiven hgiven'
    rw [ha, hb, some.injEq]
    constructor
    · rintro rfl
      exact hinj _ _ a hgiven hgiven'
    · intro heq
      rw [heq, hgiven'] at hgiven
      exact (some.inj hgiven).symm
  constructor
  · rintro ⟨-, hsame⟩ i j hi hj
    have hli := (List.getElem?_eq_some_iff.mp hi).1
    have hlj := (List.getElem?_eq_some_iff.mp hj).1
    have hids := (hsame i j hli hlj).mpr (hi.trans hj.symm)
    have heq := (htoken i j _ _ hi hj).mp hids
    exact Sum.inr.inj heq
  · intro honce
    refine ⟨hout.length, ?_⟩
    -- a NULL key has no id of a group
    have hmixed : ∀ (i j : Nat) k, rows[i]? = some none → rows[j]? = some (some k) →
        ids[i]? ≠ ids[j]? := by
      intro i j k hi hj heq
      obtain ⟨b, hb, hgiven⟩ := hout.key j k hj
      rw [hout.null i hi, hb, some.injEq] at heq
      have := hnonneg _ b hgiven
      omega
    intro i j hli hlj
    obtain ⟨ri, hi⟩ : ∃ r, rows[i]? = some r := ⟨_, getElem?_eq_getElem hli⟩
    obtain ⟨rj, hj⟩ : ∃ r, rows[j]? = some r := ⟨_, getElem?_eq_getElem hlj⟩
    cases ri with
    | none =>
      cases rj with
      | none => exact iff_of_true ((hout.null i hi).trans (hout.null j hj).symm) (hi.trans hj.symm)
      | some k =>
        rw [hi, hj]
        exact ⟨fun h => absurd h (hmixed i j k hi hj), nofun⟩
    | some k =>
      cases rj with
      | none =>
        rw [hi, hj]
        exact ⟨fun h => absurd h.symm (hmixed j i k hj hi), nofun⟩
      | some k' =>
        rw [htoken i j k k' hi hj, hi, hj, some.injEq, some.injEq]
        constructor
        · intro heq
          have hkeys := congrArg tokenKey heq
          rwa [tokenKey_token, tokenKey_token] at hkeys
        · rintro rfl
          by_cases hk : k = intHashEmpty
          · subst hk
            rw [honce i j hi hj]
          · rw [token, token, if_neg hk, if_neg hk]

-- The groups the table makes: one for each key, and for the reserved key one a row.
def groupCount (rows : List (Option (BitVec 64))) : Nat :=
  (IntGroups.tokens 0 rows).dedup.length

open IntGroups in
theorem groupsByKey_iff {hint : Nat} {batches : List Batch}
    (hcount : groupCount (batches.flatMap Batch.rows) < 2 ^ 31) :
    GroupsByKey hint batches ↔ OccursOnce intHashEmpty (batches.flatMap Batch.rows) := by
  obtain ⟨ids, s, given, hrun, hgrouped, -, hout⟩ :=
    (@start_grouped (tokens 0 (batches.flatMap Batch.rows)).toFinset hint).consumeAll hcount batches
      fun a => mem_toFinset.mpr
  rw [← sameGroups_iff hout hgrouped.injective hgrouped.nonneg, GroupsByKey, groupIds, hrun]
  constructor
  · rintro ⟨ids', hids, hsame⟩
    obtain rfl := some.inj hids
    exact hsame
  · intro hsame
    exact ⟨_, rfl, hsame⟩

-- The tables are maps, and the rows of a key share a group, but for the one key
-- that marks an empty slot.
theorem int_hash_law_iff (h : IntHistory) :
    (h.Fits → (h.MapLaw ↔ ¬ h.Inserts intHashEmpty)) ∧
      ∀ (hint : Nat) (batches : List IntGroups.Batch),
        groupCount (batches.flatMap IntGroups.Batch.rows) < 2 ^ 31 →
          (GroupsByKey hint batches ↔
            OccursOnce intHashEmpty (batches.flatMap IntGroups.Batch.rows)) := by
  constructor
  · intro hfits
    exact ⟨not_inserts_of_mapLaw, mapLaw_of_not_inserts hfits⟩
  · intro hint batches hcount
    exact groupsByKey_iff hcount

theorem int_hash_law_iff_pair :
    (⟨0, [.put 1 7, .delete 1], none⟩ : IntHistory).MapLaw ∧
      GroupsByKey 0 [⟨[some 1, none, some 1], true⟩, ⟨[some 2], false⟩] := by
  constructor
  · refine ((int_hash_law_iff _).1 (nofun : IntHistory.Fits ⟨0, _, none⟩)).mpr ?_
    rintro (⟨op, hop, hins⟩ | ⟨ops, hops, -⟩)
    · revert op
      decide
    · cases hops
  · refine ((int_hash_law_iff ⟨0, [], none⟩).2 0 _ (by decide)).mpr ?_
    intro i j hi
    have hnever : some (some intHashEmpty) ∉
        ([some 1, none, some 1, some 2] : List (Option (BitVec 64))).map some := by decide
    exact absurd (mem_map.mpr ⟨_, mem_of_getElem? hi, rfl⟩) hnever

-- A stored reserved key is not found again, and its two rows get two groups.
theorem reserved_key_lost :
    ¬ (⟨0, [.put intHashEmpty 7, .get intHashEmpty], none⟩ : IntHistory).MapLaw ∧
      IntGroups.groupIds 0 [⟨[some intHashEmpty, some intHashEmpty], false⟩] = some [0, 1] ∧
      ¬ GroupsByKey 0 [⟨[some intHashEmpty, some intHashEmpty], false⟩] := by
  have hids : IntGroups.groupIds 0 [⟨[some intHashEmpty, some intHashEmpty], false⟩] =
      some [0, 1] := by decide
  refine ⟨?_, hids, ?_⟩
  · intro hlaw
    exact not_inserts_of_mapLaw hlaw (.inl ⟨.put intHashEmpty 7, mem_cons_self, by decide⟩)
  · rintro ⟨ids, hrun, -, hsame⟩
    obtain rfl := some.inj (hids.symm.trans hrun)
    exact absurd ((hsame 0 1 (by decide) (by decide)).mpr rfl) (by decide)

end Wadjet.Engine.Exec
