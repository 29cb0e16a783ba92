import Mathlib.Data.Set.Finite.Lattice
import Wadjet.Engine.Exec.IntHashMap

namespace Wadjet.Engine.Exec

open Wadjet.Data IntSlots List Function

namespace IntTwoLevelTable

def restrict (m : IntMap) (b : Fin twoLevelBuckets) : IntMap :=
  fun k => if bucketOf k = b then m k else none

structure Bucket (s : IntSlots) (m : IntMap) (lost : Nat) : Prop where
  sound : Sound bucketHash s m lost
  four : 4 ≤ s.bits
  light : ¬ s.overloaded ∨ 35 ≤ s.bits

def Bucketed (t : IntTwoLevelTable) (m : IntMap) (lost : Fin twoLevelBuckets → Nat) : Prop :=
  ∀ b, Bucket (t.subs b) (restrict m b) (lost b)

variable {t : IntTwoLevelTable} {s : IntSlots} {m : IntMap} {lost : Nat}
  {losts : Fin twoLevelBuckets → Nat} {key : BitVec 64} {val : Int} {b : Fin twoLevelBuckets}

theorem Bucket.room (h : Bucket s m lost) (hcount : keyCount m < 2 ^ 35) :
    keyCount m < 2 ^ s.bits := by
  obtain hlight | hwide := h.light
  · have hsize := h.sound.size
    have hle := not_overloaded_iff.mp hlight
    have hpow := sixteen_le h.four
    omega
  · exact hcount.trans_le (Nat.pow_le_pow_right two_pos hwide)

theorem settleSub_bucket (hsound : Sound bucketHash s m lost) (hfour : 4 ≤ s.bits)
    (hsize : s.size * 10 ≤ 2 ^ s.bits * 7 + 10 ∨ 35 ≤ s.bits) :
    ∃ s', settleSub s = some s' ∧ Bucket s' m lost := by
  unfold settleSub
  by_cases hover : s.overloaded
  · rw [if_pos hover]
    by_cases hwide : 35 ≤ s.bits
    · have hcap : 0 < 2 ^ (s.bits + 1) >>> twoLevelMaxSubBits := by
        rw [Nat.shiftRight_eq_div_pow]
        exact Nat.div_pos (Nat.pow_le_pow_right two_pos (by
          unfold twoLevelMaxSubBits
          omega)) (Nat.two_pow_pos _)
      exact ⟨s, if_pos hcap, hsound, hfour, .inr hwide⟩
    · have hcap : ¬ 0 < 2 ^ (s.bits + 1) >>> twoLevelMaxSubBits := by
        rw [Nat.shiftRight_eq_div_pow, Nat.div_eq_of_lt]
        · exact lt_irrefl 0
        · exact Nat.pow_lt_pow_right (by decide) (by
            unfold twoLevelMaxSubBits
            omega)
      obtain ⟨s', hgrow, hsound', hbits, hlight⟩ := hsound.grow_light hfour
      exact ⟨s', by rw [growSub, if_neg hcap, hgrow], hsound', by omega, .inl (hlight (by omega))⟩
  · exact ⟨s, if_neg hover, hsound, hfour, .inl hover⟩

theorem Bucket.settle (h : Bucket s m lost) {s' : IntSlots} {m' : IntMap} {lost' : Nat}
    (hsound : Sound bucketHash s' m' lost') (hbits : s'.bits = s.bits)
    (hcount : keyCount m' + lost' ≤ keyCount m + lost + 1) :
    ∃ s'', settleSub s' = some s'' ∧ Bucket s'' m' lost' := by
  have hsize := h.sound.size
  have hsize' := hsound.size
  refine settleSub_bucket hsound (by rw [hbits]; exact h.four) ?_
  rw [hbits]
  obtain hlight | hwide := h.light
  · have hle := not_overloaded_iff.mp hlight
    exact .inl (by omega)
  · exact .inr hwide

theorem restrict_self (m : IntMap) (key : BitVec 64) : restrict m (bucketOf key) key = m key :=
  if_pos rfl

theorem restrict_update (v : Option Int) :
    restrict (update m key v) (bucketOf key) = update (restrict m (bucketOf key)) key v := by
  funext k
  unfold restrict
  by_cases hk : k = key
  · subst hk
    rw [if_pos rfl, update_self, update_self]
  · rw [update_of_ne hk, update_of_ne hk]

theorem restrict_update_of_ne (v : Option Int) (hb : b ≠ bucketOf key) :
    restrict (update m key v) b = restrict m b := by
  funext k
  unfold restrict
  by_cases hk : k = key
  · subst hk
    rw [if_neg hb.symm, if_neg hb.symm]
  · rw [update_of_ne hk]

section

variable (h : Bucketed t m losts)

include h

theorem Bucketed.finite : {k | m k ≠ none}.Finite := by
  have hunion : {k | m k ≠ none} ⊆ ⋃ b, {k | restrict m b k ≠ none} := by
    intro k hk
    rw [Set.mem_iUnion]
    refine ⟨bucketOf k, ?_⟩
    rw [Set.mem_ofPred_eq, restrict_self]
    exact hk
  exact (Set.finite_iUnion (fun b => (h b).sound.rep.finite)).subset hunion

theorem Bucketed.count_le (b : Fin twoLevelBuckets) : keyCount (restrict m b) ≤ keyCount m := by
  refine Set.ncard_le_ncard ?_ h.finite
  intro k hk hnone
  exact hk (by rw [restrict, hnone, ite_self])

theorem Bucketed.room (hcount : keyCount m < 2 ^ 35)
    (b : Fin twoLevelBuckets) : keyCount (restrict m b) < 2 ^ (t.subs b).bits :=
  (h b).room ((h.count_le b).trans_lt hcount)

theorem Bucketed.set {m' : IntMap} (hs : Bucket s (restrict m' b) lost)
    (hrest : ∀ c, c ≠ b → restrict m' c = restrict m c) :
    Bucketed (t.setSub b s) m' (update losts b lost) := by
  intro c
  by_cases hc : c = b
  · subst hc
    simp only [IntTwoLevelTable.setSub, update_self]
    exact hs
  · simp only [hrest c hc, IntTwoLevelTable.setSub, update_of_ne hc]
    exact h c

theorem Bucketed.setSub {v : Option Int}
    (hs : Bucket s (update (restrict m (bucketOf key)) key v) lost) :
    Bucketed (t.setSub (bucketOf key) s) (update m key v) (update losts (bucketOf key) lost) :=
  h.set (by rwa [restrict_update]) fun _ hc => restrict_update_of_ne v hc

theorem Bucketed.get (hcount : keyCount m < 2 ^ 35) : t.get key = some (m.get key) := by
  have hget := @Sound.get _ _ _ _ key (h (bucketOf key)).sound (h.room hcount _)
  rw [IntTwoLevelTable.get, hget, IntMap.get, IntMap.get, restrict_self]

theorem Bucketed.getOrInsert (hkey : key ≠ intHashEmpty) (hcount : keyCount m < 2 ^ 35) :
    ∃ t', t.getOrInsert key val = some ((m.getOrInsert key val).1, t') ∧
      Bucketed t' (m.getOrInsert key val).2 losts := by
  have hb := h (bucketOf key)
  obtain ⟨s, hop, hsound, hbits⟩ :=
    @Sound.getOrInsertNoGrow _ _ _ _ key val hb.sound hkey (h.room hcount _)
  have hself := restrict_self m key
  rw [IntTwoLevelTable.getOrInsert, hop, Option.bind_some]
  cases hm : m key with
  | some old =>
    rw [IntMap.getOrInsert_of_some val hm, IntMap.getOrInsert_of_some val (hself.trans hm)]
    exact ⟨t, rfl, h⟩
  | none =>
    have hnone := hself.trans hm
    rw [IntMap.getOrInsert_of_none val hnone] at hsound
    have hstore := keyCount_store hb.sound.rep.finite val hnone
    obtain ⟨s', hsettle, hs'⟩ := hb.settle hsound hbits (by rw [hstore]; omega)
    have hset := h.setSub hs'
    rw [update_eq_self] at hset
    rw [IntMap.getOrInsert_of_none val hm, IntMap.getOrInsert_of_none val hnone, hsettle]
    exact ⟨_, rfl, hset⟩

theorem Bucketed.getOrInsert_reserved (hcount : keyCount m < 2 ^ 35) :
    ∃ t' losts', t.getOrInsert intHashEmpty val = some ((val, false), t') ∧
      Bucketed t' m losts' := by
  have hb := h (bucketOf intHashEmpty)
  obtain ⟨s, hop, hsound, hbits⟩ :=
    @Sound.getOrInsertNoGrow_reserved _ _ _ _ val hb.sound (h.room hcount _)
  obtain ⟨s', hsettle, hs'⟩ := hb.settle hsound hbits (by omega)
  refine ⟨t.setSub (bucketOf intHashEmpty) s', _, ?_, h.set hs' fun _ _ => rfl⟩
  rw [IntTwoLevelTable.getOrInsert, hop]
  simp [hsettle]

theorem Bucketed.delete (hcount : keyCount m < 2 ^ 35) :
    (t.delete key).1 = (m.delete key).1 ∧ Bucketed (t.delete key).2 (m.delete key).2 losts := by
  have hb := h (bucketOf key)
  obtain ⟨hanswer, hsound, hbits⟩ := @Sound.delete _ _ _ _ key hb.sound (h.room hcount _)
  have hle : keyCount ((restrict m (bucketOf key)).delete key).2 ≤ _ :=
    keyCount_delete_le hb.sound.rep.finite
  have h1 := hb.sound.size
  have h2 := hsound.size
  refine ⟨?_, ?_⟩
  · rw [IntTwoLevelTable.delete]
    rw [hanswer, IntMap.delete, IntMap.delete, IntMap.get, IntMap.get, restrict_self]
  · have hlight : Bucket ((t.subs (bucketOf key)).delete bucketHash key).2
        ((restrict m (bucketOf key)).delete key).2 (losts (bucketOf key)) := by
      refine ⟨hsound, hbits ▸ hb.four, ?_⟩
      rw [not_overloaded_iff, hbits]
      obtain hload | hwide := hb.light
      · rw [not_overloaded_iff] at hload
        omega
      · exact .inr hwide
    have hset := h.setSub hlight
    rwa [update_eq_self] at hset

theorem Bucketed.addEntry {e : IntHashEntry} (hkey : e.key ≠ intHashEmpty)
    (habsent : m e.key = none) (hcount : keyCount m < 2 ^ 35) :
    ∃ t', t.addEntry e = some t' ∧ Bucketed t' (update m e.key (some e.val)) losts := by
  have hb := h (bucketOf e.key)
  have hnone := (restrict_self m e.key).trans habsent
  obtain ⟨entries, hplace, hsound⟩ := hb.sound.placeEntry hkey hnone (h.room hcount _)
  have hstore := keyCount_store hb.sound.rep.finite e.val hnone
  obtain ⟨s', hsettle, hs'⟩ := hb.settle hsound rfl (by omega)
  have hset := h.setSub hs'
  rw [update_eq_self] at hset
  refine ⟨t.setSub (bucketOf e.key) s', ?_, hset⟩
  rw [IntTwoLevelTable.addEntry, hplace, Option.bind_some, hsettle, Option.map_some]

end

theorem convert_bucketed {flat : IntSlots} {lost : Nat} (h : Sound fibHash flat m lost)
    (hcount : keyCount m < 2 ^ 35) : ∃ t', convert flat = some t' ∧ Bucketed t' m (fun _ => 0) := by
  have hempty : Bucketed ⟨fun _ => emptySlots (max 4 (flat.bits - 8))⟩ (fun _ => none)
      (fun _ => 0) := by
    intro b
    have hnone : restrict (fun _ => none) b = fun _ => none := by
      funext k
      exact ite_self none
    rw [hnone]
    refine ⟨sound_empty _, le_max_left _ _, .inl ?_⟩
    rw [not_overloaded_iff]
    exact Nat.zero_le _
  exact foldlM_stores addEntry (P := fun t m => Bucketed t m fun _ => 0)
    (fun t m e he h habsent hcount => h.addEntry (liveEntries_ne he) habsent hcount) hempty h.lists
    (h.length_liveEntries.trans_le hcount.le)

theorem restrict_keyed {c : Fin twoLevelBuckets} {k : BitVec 64} {v : Int}
    (h : restrict m b k = some v) (hc : restrict m c k ≠ none) : b = c := by
  by_contra hne
  by_cases hb : bucketOf k = b
  · exact hc (if_neg fun heq => hne (hb.symm.trans heq))
  · rw [restrict, if_neg hb] at h
    cases h

theorem Bucketed.growSub (h : Bucketed t m losts) (b : Fin twoLevelBuckets) :
    ∃ s, growSub (t.subs b) = some s ∧ Bucketed (t.setSub b s) m losts := by
  have hset : ∀ s, Bucket s (restrict m b) (losts b) → Bucketed (t.setSub b s) m losts := by
    intro s hs
    have hset := h.set hs fun _ _ => rfl
    rwa [update_eq_self] at hset
  have hb := h b
  unfold IntTwoLevelTable.growSub
  by_cases hcap : 0 < 2 ^ ((t.subs b).bits + 1) >>> twoLevelMaxSubBits
  · exact ⟨t.subs b, if_pos hcap, hset _ hb⟩
  obtain ⟨s, hgrow, hsound, hbits, hlight⟩ := hb.sound.grow_light hb.four
  have hfour := hb.four
  refine ⟨s, by rw [if_neg hcap, hgrow], hset s ⟨hsound, by omega, ?_⟩⟩
  obtain hle | hwide := hb.light
  · rw [not_overloaded_iff] at hle
    exact .inl (hlight (by omega))
  · exact .inr (by omega)

theorem Bucketed.lists (h : Bucketed t m losts) : Lists t.forEach m := by
  have hsub : ∀ b, Lists (t.subs b).forEach (restrict m b) := fun b => (h b).sound.lists
  constructor
  · rw [IntTwoLevelTable.forEach, map_flatMap, nodup_flatMap]
    refine ⟨fun b _ => (hsub b).nodup, ?_⟩
    refine (nodup_finRange twoLevelBuckets).imp ?_
    -- a key listed by two buckets would fall in both
    intro b c hbc k hk hk'
    obtain ⟨⟨_, v⟩, hv, rfl⟩ := mem_map.mp hk
    obtain ⟨⟨_, w⟩, hw, rfl⟩ := mem_map.mp hk'
    refine hbc (restrict_keyed (((hsub b).mem _ _).mp hv) ?_)
    rw [((hsub c).mem _ _).mp hw]
    exact Option.some_ne_none w
  · intro k v
    rw [IntTwoLevelTable.forEach, mem_flatMap]
    constructor
    · rintro ⟨b, -, hmem⟩
      have hv := ((hsub b).mem k v).mp hmem
      rw [restrict] at hv
      by_cases hb : bucketOf k = b
      · rwa [if_pos hb] at hv
      · rw [if_neg hb] at hv
        cases hv
    · intro hv
      refine ⟨bucketOf k, mem_finRange _, ((hsub _).mem k v).mpr ?_⟩
      rw [restrict_self, hv]

theorem Bucketed.len (h : Bucketed t m fun _ => 0) : t.len = keyCount m := by
  rw [← h.lists.length, IntTwoLevelTable.forEach, length_flatMap, IntTwoLevelTable.len]
  congr 1
  apply map_congr_left
  intro b _
  rw [(h b).sound.size, (h b).sound.lists.length, add_zero]

end IntTwoLevelTable

end Wadjet.Engine.Exec
