import Wadjet.Data.History
import Wadjet.Engine.Exec.IntTwoLevel

namespace Wadjet.Engine.Exec

open Wadjet.Data IntSlots Option

-- An insertion that leaves the load test to its caller is followed by the test.
inductive IntHashOp where
  | put (key : BitVec 64) (val : Int)
  | get (key : BitVec 64)
  | getOrInsert (key : BitVec 64) (val : Int)
  | getOrInsertNoGrow (key : BitVec 64) (val : Int)
  | delete (key : BitVec 64)
  | grow
deriving DecidableEq

inductive IntBucketOp where
  | get (key : BitVec 64)
  | getOrInsert (key : BitVec 64) (val : Int)
  | delete (key : BitVec 64)
  | growSub (b : Fin twoLevelBuckets)
deriving DecidableEq

namespace IntHashOp

def run (t : IntSlots) : IntHashOp → Option (Option (Int × Bool) × IntSlots)
  | put key val => (t.put key val).map fun r => (some r.1, r.2)
  | get key => (t.get fibHash key).map fun r => (some r, t)
  | getOrInsert key val => (t.getOrInsert key val).map fun r => (some r.1, r.2)
  | getOrInsertNoGrow key val =>
    (t.getOrInsertNoGrow fibHash key val).bind fun r => r.2.checkGrow.map fun t => (some r.1, t)
  | delete key => some (some (t.delete fibHash key).1, (t.delete fibHash key).2)
  | grow => (t.grow fibHash).map fun t => (none, t)

def onMap (m : IntMap) : IntHashOp → Option (Int × Bool) × IntMap
  | put key val => (some (m.put key val).1, (m.put key val).2)
  | get key => (some (m.get key), m)
  | getOrInsert key val | getOrInsertNoGrow key val =>
    (some (m.getOrInsert key val).1, (m.getOrInsert key val).2)
  | delete key => (some (m.delete key).1, (m.delete key).2)
  | grow => (none, m)

def inserts (key : BitVec 64) : IntHashOp → Bool
  | put key' _ | getOrInsert key' _ | getOrInsertNoGrow key' _ => key' == key
  | get _ | delete _ | grow => false

end IntHashOp

namespace IntBucketOp

def run (t : IntTwoLevelTable) : IntBucketOp → Option (Option (Int × Bool) × IntTwoLevelTable)
  | get key => (t.get key).map fun r => (some r, t)
  | getOrInsert key val => (t.getOrInsert key val).map fun r => (some r.1, r.2)
  | delete key => some (some (t.delete key).1, (t.delete key).2)
  | growSub b => (IntTwoLevelTable.growSub (t.subs b)).map fun s => (none, t.setSub b s)

def onMap (m : IntMap) : IntBucketOp → Option (Int × Bool) × IntMap
  | get key => (some (m.get key), m)
  | getOrInsert key val => (some (m.getOrInsert key val).1, (m.getOrInsert key val).2)
  | delete key => (some (m.delete key).1, (m.delete key).2)
  | growSub _ => (none, m)

def inserts (key : BitVec 64) : IntBucketOp → Bool
  | getOrInsert key' _ => key' == key
  | get _ | delete _ | growSub _ => false

end IntBucketOp

inductive IntIndex where
  | flat (t : IntSlots)
  | twoLevel (t : IntTwoLevelTable)

namespace IntIndex

def len : IntIndex → Nat
  | flat t => t.size
  | twoLevel t => t.len

def forEach : IntIndex → List (BitVec 64 × Int)
  | flat t => t.forEach
  | twoLevel t => t.forEach

end IntIndex

-- The operations on a flat table made for hint entries, and those on the
-- two-level table where it was converted.
structure IntHistory where
  hint : Nat
  ops : List IntHashOp
  converted : Option (List IntBucketOp)

namespace IntHistory

def run (h : IntHistory) : Option (List (Option (Int × Bool)) × IntIndex) :=
  (answersOf IntHashOp.run (newIntHashTable h.hint) h.ops).bind fun r =>
    match h.converted with
    | none => some (r.1, .flat r.2)
    | some ops =>
      (IntTwoLevelTable.convert r.2).bind fun t =>
        (answersOf IntBucketOp.run t ops).map fun q => (r.1 ++ q.1, .twoLevel q.2)

def flatMap (h : IntHistory) : List (Option (Int × Bool)) × IntMap :=
  specAnswers IntHashOp.onMap (fun _ => none) h.ops

def onMap (h : IntHistory) : List (Option (Int × Bool)) × IntMap :=
  match h.converted with
  | none => h.flatMap
  | some ops =>
    (h.flatMap.1 ++ (specAnswers IntBucketOp.onMap h.flatMap.2 ops).1,
      (specAnswers IntBucketOp.onMap h.flatMap.2 ops).2)

def MapLaw (h : IntHistory) : Prop :=
  ∃ index, h.run = some (h.onMap.1, index) ∧ index.len = keyCount h.onMap.2 ∧
    Lists index.forEach h.onMap.2

def Inserts (h : IntHistory) (key : BitVec 64) : Prop :=
  (∃ op ∈ h.ops, op.inserts key) ∨ ∃ ops ∈ h.converted, ∃ op ∈ ops, op.inserts key

-- A bucket does not grow beyond the slots that hold this many keys.
def Fits (h : IntHistory) : Prop :=
  ∀ ops ∈ h.converted, keyCount h.flatMap.2 < 2 ^ 35 ∧
    Along IntBucketOp.onMap (fun m _ => keyCount m < 2 ^ 35) h.flatMap.2 ops

end IntHistory

theorem IntHashOp.run_flat (t : IntSlots) (m : IntMap) (op : IntHashOp) (h : Flat t m 0)
    (hkey : op.inserts intHashEmpty = false) :
    ∃ t', op.run t = some ((op.onMap m).1, t') ∧ Flat t' (op.onMap m).2 0 := by
  cases op with
  | put key val =>
    obtain ⟨t', hop, h'⟩ := @Flat.put _ _ _ key val h (beq_eq_false_iff_ne.mp hkey)
    exact ⟨t', by rw [run, hop, map_some, onMap], h'⟩
  | get key =>
    have hop := @Sound.get _ _ _ _ key h.sound h.room
    exact ⟨t, by rw [run, hop, map_some, onMap], h⟩
  | getOrInsert key val =>
    obtain ⟨t', hop, h'⟩ := @Flat.getOrInsert _ _ _ key val h (beq_eq_false_iff_ne.mp hkey)
    exact ⟨t', by rw [run, hop, map_some, onMap], h'⟩
  | getOrInsertNoGrow key val =>
    obtain ⟨r, t', hop, hanswer, hgrow, h'⟩ :=
      @Flat.getOrInsertNoGrow _ _ _ key val h (beq_eq_false_iff_ne.mp hkey)
    exact ⟨t', by rw [run, hop, bind_some, hgrow, map_some, hanswer, onMap], h'⟩
  | delete key =>
    obtain ⟨hanswer, h'⟩ := @Flat.delete _ _ _ key h
    exact ⟨_, by rw [run, hanswer, onMap], h'⟩
  | grow =>
    obtain ⟨t', hop, h'⟩ := h.grow
    exact ⟨t', by rw [run, hop, map_some, onMap], h'⟩

theorem IntBucketOp.run_bucketed (t : IntTwoLevelTable) (m : IntMap) (op : IntBucketOp)
    (h : IntTwoLevelTable.Bucketed t m fun _ => 0)
    (hok : keyCount m < 2 ^ 35 ∧ op.inserts intHashEmpty = false) :
    ∃ t', op.run t = some ((op.onMap m).1, t') ∧
      IntTwoLevelTable.Bucketed t' (op.onMap m).2 fun _ => 0 := by
  cases op with
  | get key =>
    have hop := @IntTwoLevelTable.Bucketed.get _ _ _ key h hok.1
    exact ⟨t, by rw [run, hop, map_some, onMap], h⟩
  | getOrInsert key val =>
    obtain ⟨t', hop, h'⟩ := @IntTwoLevelTable.Bucketed.getOrInsert _ _ _ key val h
      (beq_eq_false_iff_ne.mp hok.2) hok.1
    exact ⟨t', by rw [run, hop, map_some, onMap], h'⟩
  | delete key =>
    obtain ⟨hanswer, h'⟩ := @IntTwoLevelTable.Bucketed.delete _ _ _ key h hok.1
    exact ⟨_, by rw [run, hanswer, onMap], h'⟩
  | growSub b =>
    obtain ⟨s, hop, h'⟩ := h.growSub b
    exact ⟨_, by rw [run, hop, map_some, onMap], h'⟩

theorem mapLaw_of_not_inserts {h : IntHistory} (hfits : h.Fits)
    (hkey : ¬ h.Inserts intHashEmpty) : h.MapLaw := by
  obtain ⟨hflat, hbucket⟩ := not_or.mp hkey
  obtain ⟨t, hrun, ht⟩ := answersOf_refines IntHashOp.run_flat (newIntHashTable_flat h.hint)
    (along_of_forall (fun op hop => by
      by_contra hins
      exact hflat ⟨op, hop, by simpa using hins⟩) : Along IntHashOp.onMap
        (fun _ op => op.inserts intHashEmpty = false) (fun _ => none) h.ops)
  unfold IntHistory.MapLaw IntHistory.run IntHistory.onMap
  rw [hrun, bind_some]
  cases hconv : h.converted with
  | none =>
    refine ⟨.flat t, rfl, ?_, ht.sound.lists⟩
    rw [IntIndex.len, ht.sound.size]
    rfl
  | some ops =>
    obtain ⟨hcount, halong⟩ := hfits ops hconv
    obtain ⟨t1, hconvert, h1⟩ := IntTwoLevelTable.convert_bucketed ht.sound hcount
    obtain ⟨t2, hops, h2⟩ := answersOf_refines IntBucketOp.run_bucketed h1
      (halong.and (along_of_forall fun op hop => by
        by_contra hins
        exact hbucket ⟨ops, hconv, op, hop, by simpa using hins⟩))
    refine ⟨.twoLevel t2, ?_, h2.len, h2.lists⟩
    dsimp only
    rw [hconvert, bind_some, hops]
    rfl

-- The other direction. A map that holds the reserved key holds it until a deletion,
-- which the table answers as one of an absent key.
variable {m : IntMap} {key : BitVec 64}

theorem IntMap.update_kept {v : Option Int}
    (h : m intHashEmpty ≠ none) (hv : key = intHashEmpty → v ≠ none) :
    Function.update m key v intHashEmpty ≠ none := by
  by_cases hkey : intHashEmpty = key
  · subst hkey
    exact hv rfl
  · rwa [Function.update_of_ne hkey]

theorem IntMap.getOrInsert_kept {val : Int} (h : m intHashEmpty ≠ none ∨ key = intHashEmpty) :
    (m.getOrInsert key val).2 intHashEmpty ≠ none := by
  cases hm : m key with
  | some old =>
    rw [getOrInsert_of_some val hm]
    dsimp only
    obtain h | rfl := h
    · exact h
    · rw [hm]
      exact some_ne_none old
  | none =>
    rw [getOrInsert_of_none val hm]
    dsimp only
    obtain h | rfl := h
    · exact update_kept h fun _ => some_ne_none val
    · exact some_ne_none val

theorem IntMap.delete_kept (h : m intHashEmpty ≠ none)
    (hanswer : key = intHashEmpty → (m.delete key).1 = (0, false)) :
    (m.delete key).2 intHashEmpty ≠ none := by
  refine update_kept h fun hkey => ?_
  have hfound := congrArg Prod.snd (hanswer hkey)
  subst hkey
  simp only [delete, get, isSome_eq_false_iff, isNone_iff_eq_none] at hfound
  exact absurd hfound h

theorem IntHashOp.run_kept (t : IntSlots) (m : IntMap) (op : IntHashOp) (t' : IntSlots)
    (h : m intHashEmpty ≠ none) (hrun : op.run t = some ((op.onMap m).1, t')) :
    (op.onMap m).2 intHashEmpty ≠ none := by
  cases op with
  | put key val => exact IntMap.update_kept h fun _ => some_ne_none val
  | get key => exact h
  | getOrInsert key val => exact IntMap.getOrInsert_kept (.inl h)
  | getOrInsertNoGrow key val => exact IntMap.getOrInsert_kept (.inl h)
  | delete key =>
    refine IntMap.delete_kept h fun hkey => ?_
    subst hkey
    rw [run, Sound.delete_reserved, onMap, some.injEq, Prod.mk.injEq,
      some.injEq] at hrun
    exact hrun.1.symm
  | grow => exact h

theorem IntHashOp.onMap_brings (m : IntMap) (op : IntHashOp)
    (h : op.inserts intHashEmpty) : (op.onMap m).2 intHashEmpty ≠ none := by
  cases op with
  | put key val =>
    obtain rfl := beq_iff_eq.mp h
    rw [onMap, IntMap.put]
    dsimp only
    exact some_ne_none val
  | getOrInsert key val => exact IntMap.getOrInsert_kept (.inr (beq_iff_eq.mp h))
  | getOrInsertNoGrow key val => exact IntMap.getOrInsert_kept (.inr (beq_iff_eq.mp h))
  | get key => cases h
  | delete key => cases h
  | grow => cases h

theorem IntBucketOp.run_kept (t : IntTwoLevelTable) (m : IntMap) (op : IntBucketOp)
    (t' : IntTwoLevelTable) (h : m intHashEmpty ≠ none)
    (hrun : op.run t = some ((op.onMap m).1, t')) : (op.onMap m).2 intHashEmpty ≠ none := by
  cases op with
  | get key => exact h
  | getOrInsert key val => exact IntMap.getOrInsert_kept (.inl h)
  | delete key =>
    refine IntMap.delete_kept h fun hkey => ?_
    subst hkey
    rw [run, IntTwoLevelTable.delete, Sound.delete_reserved, onMap, some.injEq,
      Prod.mk.injEq, some.injEq] at hrun
    exact hrun.1.symm
  | growSub b => exact h

theorem IntBucketOp.onMap_brings (m : IntMap) (op : IntBucketOp)
    (h : op.inserts intHashEmpty) : (op.onMap m).2 intHashEmpty ≠ none := by
  cases op with
  | getOrInsert key val => exact IntMap.getOrInsert_kept (.inr (beq_iff_eq.mp h))
  | get key => cases h
  | delete key => cases h
  | growSub b => cases h

variable {index : IntIndex}

theorem forEach_ne_reserved {p : BitVec 64 × Int} (h : p ∈ index.forEach) : p.1 ≠ intHashEmpty := by
  have hslots : ∀ t : IntSlots, p ∈ t.forEach → p.1 ≠ intHashEmpty := by
    intro t ht
    obtain ⟨e, he, rfl⟩ := List.mem_map.mp ht
    exact liveEntries_ne he
  cases index with
  | flat t => exact hslots t h
  | twoLevel t =>
    obtain ⟨b, -, hb⟩ := List.mem_flatMap.mp h
    exact hslots (t.subs b) hb

variable {h : IntHistory}

theorem run_reserved (hrun : h.run = some (h.onMap.1, index))
    (hkey : h.Inserts intHashEmpty) : h.onMap.2 intHashEmpty ≠ none := by
  obtain ⟨⟨as, t⟩, hops, hrun⟩ := bind_eq_some_iff.mp hrun
  cases hconv : h.converted with
  | none =>
    rw [IntHistory.onMap, hconv] at hrun ⊢
    obtain ⟨rfl, -⟩ : as = h.flatMap.1 ∧ _ := by simpa [hconv] using hrun
    obtain hkey | ⟨ops, hops', -⟩ := hkey
    · exact answersOf_reaches IntHashOp.run_kept IntHashOp.onMap_brings hops hkey
    · rw [hconv] at hops'
      cases hops'
  | some ops =>
    rw [IntHistory.onMap, hconv] at hrun ⊢
    obtain ⟨t1, hconvert, hrun⟩ := bind_eq_some_iff.mp hrun
    obtain ⟨⟨as', t2⟩, hops', heq⟩ := map_eq_some_iff.mp hrun
    rw [Prod.mk.injEq] at heq
    -- the answers before the conversion are as many as the operations
    have hlen := answersOf_length hops
    obtain ⟨rfl, rfl⟩ := List.append_inj heq.1
      (hlen.trans (specAnswers_length IntHashOp.onMap _ h.ops).symm)
    obtain hkey | ⟨_, hmem, hkey⟩ := hkey
    · exact answersOf_keeps IntBucketOp.run_kept
        (answersOf_reaches IntHashOp.run_kept IntHashOp.onMap_brings hops hkey) hops'
    · rw [hconv, mem_some_iff] at hmem
      subst hmem
      exact answersOf_reaches IntBucketOp.run_kept IntBucketOp.onMap_brings hops' hkey

theorem not_inserts_of_mapLaw (hlaw : h.MapLaw) : ¬ h.Inserts intHashEmpty := by
  intro hkey
  obtain ⟨index, hrun, -, hlists⟩ := hlaw
  obtain ⟨v, hv⟩ := ne_none_iff_exists'.mp (run_reserved hrun hkey)
  exact forEach_ne_reserved ((hlists.mem _ v).mpr hv) rfl

end Wadjet.Engine.Exec
