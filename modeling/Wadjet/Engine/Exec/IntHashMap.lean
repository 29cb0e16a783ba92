import Wadjet.Engine.Exec.IntHashSound

namespace Wadjet.Engine.Exec

open Wadjet.Data

namespace IntSlots

variable {t : IntSlots} {m : IntMap} {lost : Nat} {key : BitVec 64} {val : Int}

theorem not_overloaded_iff : ¬ t.overloaded ↔ t.size * 10 ≤ 2 ^ t.bits * 7 :=
  not_lt

theorem sixteen_le (h : 4 ≤ t.bits) : 16 ≤ 2 ^ t.bits :=
  Nat.pow_le_pow_right Nat.two_pos h

theorem Sound.grow_light {slotHash : BitVec 64 → BitVec 64} (h : Sound slotHash t m lost)
    (hfour : 4 ≤ t.bits) : ∃ t', t.grow slotHash = some t' ∧ Sound slotHash t' m lost ∧
      t'.bits = t.bits + 1 ∧ (t.size * 10 ≤ 2 ^ t.bits * 7 + 10 → ¬ t'.overloaded) := by
  obtain ⟨t', hgrow, hsound, hbits⟩ := h.grow
  refine ⟨t', hgrow, hsound, hbits, fun hle => ?_⟩
  have hsixteen := sixteen_le hfour
  have hsize := hsound.size.trans h.size.symm
  rw [not_overloaded_iff, hbits, Nat.pow_succ']
  omega

structure Flat (t : IntSlots) (m : IntMap) (lost : Nat) : Prop where
  sound : Sound fibHash t m lost
  four : 4 ≤ t.bits
  light : ¬ t.overloaded

theorem Flat.room (h : Flat t m lost) : keyCount m < 2 ^ t.bits := by
  have hsize := h.sound.size
  have hlight := not_overloaded_iff.mp h.light
  have hpow := sixteen_le h.four
  omega

theorem keyCount_getOrInsert_le (hsound : Sound fibHash t m lost) :
    keyCount (m.getOrInsert key val).2 ≤ keyCount m + 1 := by
  unfold IntMap.getOrInsert
  split
  · exact Nat.le_succ _
  · exact keyCount_store_le hsound.rep.finite val

section

variable (h : Flat t m lost)

include h

section

variable {t' : IntSlots} {m' : IntMap} {lost' : Nat} (hsound : Sound fibHash t' m' lost')
  (hbits : t'.bits = t.bits)

include hsound hbits

theorem Flat.of_count_le (hcount : keyCount m' + lost' ≤ keyCount m + lost) : Flat t' m' lost' := by
  have h1 := h.sound.size
  have h2 := hsound.size
  have hlight := not_overloaded_iff.mp h.light
  refine ⟨hsound, hbits ▸ h.four, ?_⟩
  rw [not_overloaded_iff, hbits]
  omega

theorem Flat.checkGrow (hcount : keyCount m' + lost' ≤ keyCount m + lost + 1) :
    ∃ t'', t'.checkGrow = some t'' ∧ Flat t'' m' lost' := by
  unfold IntSlots.checkGrow
  have hfour : 4 ≤ t'.bits := hbits ▸ h.four
  by_cases hover : t'.overloaded
  · obtain ⟨t'', hgrow, hsound', hbits', hlight'⟩ := hsound.grow_light hfour
    have h1 := h.sound.size
    have h2 := hsound.size
    have hlight := not_overloaded_iff.mp h.light
    rw [hbits] at hlight'
    exact ⟨t'', by rw [if_pos hover, hgrow], hsound', by omega, hlight' (by omega)⟩
  · exact ⟨t', if_neg hover, hsound, hfour, hover⟩

theorem Flat.growAfter {answer : Int × Bool} (hcount : keyCount m' + lost' ≤ keyCount m + lost + 1)
    (hfound : answer.2 → keyCount m' + lost' ≤ keyCount m + lost) :
    ∃ t'', growAfter (answer, t') = some (answer, t'') ∧ Flat t'' m' lost' := by
  unfold IntSlots.growAfter
  by_cases hans : answer.2
  · exact ⟨t', if_pos hans, h.of_count_le hsound hbits (hfound hans)⟩
  · obtain ⟨t'', hgrow, hflat⟩ := h.checkGrow hsound hbits hcount
    exact ⟨t'', by rw [if_neg hans, hgrow, Option.map_some], hflat⟩

end

theorem Flat.getOrInsertNoGrow (hkey : key ≠ intHashEmpty) :
    ∃ r t', t.getOrInsertNoGrow fibHash key val = some r ∧ r.1 = (m.getOrInsert key val).1 ∧
      r.2.checkGrow = some t' ∧ Flat t' (m.getOrInsert key val).2 lost := by
  obtain ⟨t1, hop, hsound, hbits⟩ := @Sound.getOrInsertNoGrow _ _ _ _ key val h.sound hkey h.room
  have hcount := @keyCount_getOrInsert_le t m lost key val h.sound
  obtain ⟨t', hgrow, hflat⟩ := h.checkGrow hsound hbits (by omega)
  exact ⟨((m.getOrInsert key val).1, t1), t', hop, rfl, hgrow, hflat⟩

theorem Flat.getOrInsertNoGrow_reserved :
    ∃ r t', t.getOrInsertNoGrow fibHash intHashEmpty val = some r ∧ r.1 = (val, false) ∧
      r.2.checkGrow = some t' ∧ Flat t' m (lost + 1) := by
  obtain ⟨t1, hop, hsound, hbits⟩ := @Sound.getOrInsertNoGrow_reserved _ _ _ _ val h.sound h.room
  obtain ⟨t', hgrow, hflat⟩ := h.checkGrow hsound hbits (by omega)
  exact ⟨((val, false), t1), t', hop, rfl, hgrow, hflat⟩

theorem Flat.getOrInsert (hkey : key ≠ intHashEmpty) :
    ∃ t', t.getOrInsert key val = some ((m.getOrInsert key val).1, t') ∧
      Flat t' (m.getOrInsert key val).2 lost := by
  obtain ⟨t1, hop, hsound, hbits⟩ := @Sound.getOrInsertNoGrow _ _ _ _ key val h.sound hkey h.room
  have hcount := @keyCount_getOrInsert_le t m lost key val h.sound
  rw [IntSlots.getOrInsert, hop, Option.bind_some]
  refine h.growAfter hsound hbits (by omega) fun hfound => ?_
  unfold IntMap.getOrInsert at hfound ⊢
  split at hfound
  · rfl
  · cases hfound

theorem Flat.put (hkey : key ≠ intHashEmpty) :
    ∃ t', t.put key val = some ((m.put key val).1, t') ∧ Flat t' (m.put key val).2 lost := by
  obtain ⟨t1, hop, hsound, hbits⟩ := @Sound.putNoGrow _ _ _ _ key val h.sound hkey h.room
  have hcount := @keyCount_store_le _ _ m key _ h.sound.rep.finite val
  rw [IntSlots.put, hop, Option.bind_some]
  refine h.growAfter hsound hbits (by simp only [IntMap.put]; omega) fun hfound => ?_
  have hsome : m key ≠ none := by
    intro hnone
    simp [IntMap.put, IntMap.get, hnone] at hfound
  simp only [IntMap.put, keyCount_replace val hsome, le_refl]

theorem Flat.delete : (t.delete fibHash key).1 = (m.delete key).1 ∧
      Flat (t.delete fibHash key).2 (m.delete key).2 lost := by
  obtain ⟨hanswer, hsound, hbits⟩ := @Sound.delete _ _ _ _ key h.sound h.room
  exact ⟨hanswer, h.of_count_le hsound hbits
    (Nat.add_le_add_right (keyCount_delete_le h.sound.rep.finite) lost)⟩

theorem Flat.grow : ∃ t', t.grow fibHash = some t' ∧ Flat t' m lost := by
  obtain ⟨t', hgrow, hsound, hbits, hlight⟩ := h.sound.grow_light h.four
  have hle := not_overloaded_iff.mp h.light
  have hfour := h.four
  exact ⟨t', hgrow, hsound, by omega, hlight (by omega)⟩

end

theorem newIntHashTable_flat (n : Nat) : Flat (newIntHashTable n) (fun _ => none) 0 := by
  refine ⟨sound_empty _, le_max_left _ _, ?_⟩
  rw [not_overloaded_iff]
  exact Nat.zero_le _

end IntSlots

end Wadjet.Engine.Exec
