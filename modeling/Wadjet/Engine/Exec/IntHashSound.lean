import Wadjet.Engine.Exec.IntHashView

namespace Wadjet.Engine.Exec

open Wadjet.Data Function Option

abbrev IntMap := BitVec 64 → Option Int

namespace IntMap

variable (m : IntMap) (key : BitVec 64)

def get : Int × Bool :=
  ((m key).getD 0, (m key).isSome)

variable (val : Int)

def put : (Int × Bool) × IntMap :=
  (m.get key, update m key (some val))

def getOrInsert : (Int × Bool) × IntMap :=
  match m key with
  | some old => ((old, true), m)
  | none => ((val, false), update m key (some val))

def delete : (Int × Bool) × IntMap :=
  (m.get key, update m key none)

theorem getOrInsert_of_some {m : IntMap} {key : BitVec 64} {old : Int}
    (h : m key = some old) : m.getOrInsert key val = ((old, true), m) := by
  rw [getOrInsert, h]

theorem getOrInsert_of_none {m : IntMap} {key : BitVec 64} (h : m key = none) :
    m.getOrInsert key val = ((val, false), update m key (some val)) := by
  rw [getOrInsert, h]

end IntMap

namespace IntSlots

-- The slots hold the map. Insertions of the reserved key were counted and lost.
structure Sound (slotHash : BitVec 64 → BitVec 64) (t : IntSlots) (m : IntMap) (lost : Nat) :
    Prop where
  chained : Chained (slotFor slotHash t.bits) (view t.entries)
  rep : Represents (view t.entries) m
  size : t.size = keyCount m + lost

variable {slotHash : BitVec 64 → BitVec 64} {t : IntSlots} {m : IntMap} {lost : Nat}
  {key : BitVec 64} {val : Int}

theorem sound_empty (bits : Nat) : Sound slotHash (emptySlots bits) (fun _ => none) 0 := by
  have hview : view (emptySlots bits).entries = fun _ => none := view_empty bits
  refine ⟨?_, ?_, ?_⟩
  · exact ⟨nofun, nofun⟩
  · rw [hview]
    intro k v
    simp
  · simp [keyCount, emptySlots]

namespace Sound

section

variable (hsound : Sound slotHash t m lost)

include hsound

theorem ne_reserved (h : m key = some val) : key ≠ intHashEmpty := by
  obtain ⟨i, hi⟩ := (hsound.rep key val).mp h
  exact key_ne_of_view hi

theorem reserved : m intHashEmpty = none := by
  by_contra hsome
  obtain ⟨v, hv⟩ := ne_none_iff_exists'.mp hsome
  exact hsound.ne_reserved hv rfl

theorem keyCount_le : keyCount m ≤ 2 ^ t.bits := by
  rw [← length_pairs hsound.chained hsound.rep]
  refine (List.length_filterMap_le _ _).trans ?_
  rw [List.length_finRange]

theorem exists_empty (hroom : keyCount m < 2 ^ t.bits) : ∃ e, view t.entries e = none :=
  Data.exists_empty (by rw [length_pairs hsound.chained hsound.rep]; exact hroom)

theorem find_present (h : m key = some val) :
    ∃ i, t.find slotHash key = some i ∧ view t.entries i = some (key, val) := by
  obtain ⟨i, hi⟩ := (hsound.rep key val).mp h
  refine ⟨i, ?_, hi⟩
  rw [find, findSlot_eq_probe]
  exact probe_present hsound.chained hi

theorem find_absent (h : m key = none) (hroom : keyCount m < 2 ^ t.bits) :
    ∃ i, t.find slotHash key = some i ∧ view t.entries i = none ∧
      ∀ x, gap (slotFor slotHash t.bits key) x < gap (slotFor slotHash t.bits key) i →
        view t.entries x ≠ none := by
  rw [find, findSlot_eq_probe]
  exact probe_absent hsound.rep h (hsound.exists_empty hroom) _

theorem insertAt {i : Fin (2 ^ t.bits)}
    (hkey : key ≠ intHashEmpty) (habsent : m key = none) (hempty : view t.entries i = none)
    (hpass : ∀ x, gap (slotFor slotHash t.bits key) x < gap (slotFor slotHash t.bits key) i →
      view t.entries x ≠ none) :
    Sound slotHash (t.insertAt i key val) (update m key (some val)) lost := by
  have honly : ∀ {j w}, view t.entries j = some (key, w) → j = i := fun hj =>
    absurd rfl (hsound.rep.ne_of_none habsent hj)
  have hview : view (t.insertAt i key val).entries =
      update (view t.entries) i (some (key, val)) := view_update ⟨key, val⟩ hkey
  constructor
  · rw [hview]
    exact hsound.chained.store val honly hpass
  · rw [hview]
    refine hsound.rep.store val honly fun hslot => ?_
    rw [hempty] at hslot
    cases hslot
  · rw [keyCount_store hsound.rep.finite val habsent]
    simp only [IntSlots.insertAt, hsound.size]
    omega

theorem insertAt_reserved {i : Fin (2 ^ t.bits)} (hempty : (t.entries i).key = intHashEmpty) :
    Sound slotHash (t.insertAt i intHashEmpty val) m (lost + 1) := by
  have hview : view (t.insertAt i intHashEmpty val).entries = view t.entries := by
    have hupdate := @view_update_empty _ t.entries i ⟨intHashEmpty, val⟩ rfl
    rw [← view_eq_none.mpr hempty, update_eq_self] at hupdate
    exact hupdate
  refine ⟨?_, ?_, ?_⟩
  · rw [hview]
    exact hsound.chained
  · rw [hview]
    exact hsound.rep
  · simp only [IntSlots.insertAt, hsound.size, Nat.add_assoc]

theorem find_live (h : m key = some val) :
    ∃ i, t.find slotHash key = some i ∧ t.entries i = ⟨key, val⟩ ∧
      view t.entries i = some (key, val) := by
  obtain ⟨i, hi, hslot⟩ := hsound.find_present h
  have hlive : (t.entries i).key ≠ intHashEmpty := fun hempty => by
    rw [view_eq_none.mpr hempty] at hslot
    cases hslot
  refine ⟨i, hi, ?_, hslot⟩
  rw [view_of_ne hlive] at hslot
  simp only [some.injEq, Prod.mk.injEq] at hslot
  rw [← hslot.1, ← hslot.2]

theorem get (hroom : keyCount m < 2 ^ t.bits) : t.get slotHash key = some (m.get key) := by
  unfold IntSlots.get IntMap.get
  cases hm : m key with
  | none =>
    obtain ⟨i, hi, hempty, -⟩ := hsound.find_absent hm hroom
    rw [hi, map_some, if_pos (view_eq_none.mp hempty)]
    rfl
  | some v =>
    obtain ⟨i, hi, hentry, -⟩ := hsound.find_live hm
    rw [hi, map_some, hentry, if_neg (hsound.ne_reserved hm)]
    rfl

theorem getOrInsertNoGrow (hkey : key ≠ intHashEmpty) (hroom : keyCount m < 2 ^ t.bits) :
    ∃ t', t.getOrInsertNoGrow slotHash key val = some ((m.getOrInsert key val).1, t') ∧
      Sound slotHash t' (m.getOrInsert key val).2 lost ∧ t'.bits = t.bits := by
  unfold IntSlots.getOrInsertNoGrow IntMap.getOrInsert
  cases hm : m key with
  | none =>
    obtain ⟨i, hi, hempty, hpass⟩ := hsound.find_absent hm hroom
    rw [hi, map_some, if_pos (view_eq_none.mp hempty)]
    exact ⟨_, rfl, hsound.insertAt hkey hm hempty hpass, rfl⟩
  | some v =>
    obtain ⟨i, hi, hentry, -⟩ := hsound.find_live hm
    rw [hi, map_some, hentry, if_neg hkey]
    exact ⟨t, rfl, hsound, rfl⟩

theorem getOrInsertNoGrow_reserved (hroom : keyCount m < 2 ^ t.bits) :
    ∃ t', t.getOrInsertNoGrow slotHash intHashEmpty val = some ((val, false), t') ∧
      Sound slotHash t' m (lost + 1) ∧ t'.bits = t.bits := by
  obtain ⟨i, hi, hempty, -⟩ := hsound.find_absent hsound.reserved hroom
  rw [view_eq_none] at hempty
  refine ⟨t.insertAt i intHashEmpty val, ?_, hsound.insertAt_reserved hempty, rfl⟩
  rw [IntSlots.getOrInsertNoGrow, hi, map_some, if_pos hempty]

theorem putNoGrow (hkey : key ≠ intHashEmpty) (hroom : keyCount m < 2 ^ t.bits) :
    ∃ t', t.putNoGrow slotHash key val = some ((m.put key val).1, t') ∧
      Sound slotHash t' (m.put key val).2 lost ∧ t'.bits = t.bits := by
  unfold IntSlots.putNoGrow IntMap.put IntMap.get
  cases hm : m key with
  | none =>
    obtain ⟨i, hi, hempty, hpass⟩ := hsound.find_absent hm hroom
    rw [hi, map_some, if_pos (view_eq_none.mp hempty)]
    exact ⟨_, rfl, hsound.insertAt hkey hm hempty hpass, rfl⟩
  | some v =>
    obtain ⟨i, hi, hentry, hslot⟩ := hsound.find_live hm
    rw [hi, map_some, hentry, if_neg hkey]
    refine ⟨_, rfl, ⟨?_, ?_, ?_⟩, rfl⟩
    · rw [view_update ⟨key, val⟩ hkey]
      exact hsound.chained.store val (fun hj => hsound.chained.unique hj hslot)
        (hsound.chained.reach hslot)
    · rw [view_update ⟨key, val⟩ hkey]
      refine hsound.rep.store val (fun hj => hsound.chained.unique hj hslot) fun hk => ?_
      rw [hslot] at hk
      simp only [some.injEq, Prod.mk.injEq] at hk
      exact hk.1.symm
    · rw [keyCount_replace val (by rw [hm]; nofun)]
      exact hsound.size

theorem delete (hroom : keyCount m < 2 ^ t.bits) : (t.delete slotHash key).1 = (m.delete key).1 ∧
      Sound slotHash (t.delete slotHash key).2 (m.delete key).2 lost ∧
      (t.delete slotHash key).2.bits = t.bits := by
  have hsame : m key = none → update m key none = m := fun h => by
    rw [← h, update_eq_self]
  unfold IntSlots.delete IntMap.delete IntMap.get
  cases hm : m key with
  | none =>
    obtain ⟨i, hi, hempty, -⟩ := hsound.find_absent hm hroom
    rw [hi, hsame hm]
    dsimp only
    rw [if_pos (view_eq_none.mp hempty)]
    exact ⟨rfl, hsound, rfl⟩
  | some v =>
    obtain ⟨i, hi, hentry, hslot⟩ := hsound.find_live hm
    rw [hi]
    dsimp only
    rw [hentry, if_neg (hsound.ne_reserved hm)]
    obtain ⟨hchain, hrep⟩ := hsound.chained.delete hsound.rep hslot (hsound.exists_empty hroom)
    have hcount := @keyCount_delete _ _ m key _ hsound.rep.finite (by rw [hm]; nofun)
    refine ⟨rfl, ⟨?_, ?_, ?_⟩, rfl⟩
    · rw [view_shiftBack]
      exact hchain
    · rw [view_shiftBack]
      exact hrep
    · have hsize := hsound.size
      dsimp only
      omega

end

theorem delete_reserved (t : IntSlots) :
    t.delete slotHash intHashEmpty = ((0, false), t) := by
  unfold IntSlots.delete
  cases hi : t.find slotHash intHashEmpty with
  | none => rfl
  | some i => exact if_pos (findSlot_reserved hi)

theorem placeEntry (hsound : Sound slotHash t m lost) {e : IntHashEntry}
    (hkey : e.key ≠ intHashEmpty) (habsent : m e.key = none) (hroom : keyCount m < 2 ^ t.bits) :
    ∃ entries, IntSlots.placeEntry slotHash t.bits t.entries e = some entries ∧
      Sound slotHash { t with entries := entries, size := t.size + 1 }
        (update m e.key (some e.val)) lost := by
  obtain ⟨i, hi, hempty, hpass⟩ := probe_absent hsound.rep hsound.reserved
    (hsound.exists_empty hroom) (slotFor slotHash t.bits e.key)
  refine ⟨update t.entries i e, ?_, hsound.insertAt hkey habsent hempty hpass⟩
  rw [IntSlots.placeEntry, firstFree_eq_probe, hi, map_some]

theorem lists (hsound : Sound slotHash t m lost) : Lists t.forEach m := by
  rw [forEach_eq]
  exact lists_pairs hsound.chained hsound.rep

theorem length_liveEntries (hsound : Sound slotHash t m lost) :
    t.liveEntries.length = keyCount m := by
  rw [← hsound.lists.length, forEach, List.length_map]

theorem grow (hsound : Sound slotHash t m lost) :
    ∃ t', t.grow slotHash = some t' ∧ Sound slotHash t' m lost ∧ t'.bits = t.bits + 1 := by
  have hroom : t.liveEntries.length ≤ 2 ^ (t.bits + 1) := by
    rw [hsound.length_liveEntries]
    exact hsound.keyCount_le.trans (Nat.pow_le_pow_right Nat.two_pos (Nat.le_succ _))
  obtain ⟨entries, hfold, _, hentries⟩ := foldlM_stores (IntSlots.placeEntry slotHash (t.bits + 1))
    (P := fun entries m => ∃ size, Sound slotHash ⟨t.bits + 1, entries, size⟩ m 0)
    (fun _ m e he ⟨size, h⟩ habsent hroom => by
      obtain ⟨entries, hplace, h'⟩ := h.placeEntry (liveEntries_ne he) habsent hroom
      exact ⟨entries, hplace, size + 1, h'⟩)
    ⟨0, sound_empty _⟩ hsound.lists hroom
  refine ⟨⟨t.bits + 1, entries, t.size⟩, ?_, ⟨hentries.chained, hentries.rep, hsound.size⟩, rfl⟩
  rw [IntSlots.grow, hfold, map_some]

end Sound

end IntSlots

end Wadjet.Engine.Exec
