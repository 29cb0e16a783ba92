import Wadjet.Data.LinearProbing

namespace Wadjet.Data

open Function

variable {K V : Type} {n : Nat} [NeZero n] (home : K → Fin n)

-- Deletion without tombstones: walks on from the hole to the next empty slot and
-- moves back every pair whose way leads over the hole.
def backShift (slots : Fin n → Option (K × V)) : Nat → Fin n → Fin n → (Fin n → Option (K × V))
  | 0, hole, _ => update slots hole none
  | fuel + 1, hole, j =>
    match slots (j + 1) with
    | none => update slots hole none
    | some (k, v) =>
      if gap (home k) (j + 1) < gap hole (j + 1) then backShift slots fuel hole (j + 1)
      else backShift (update slots hole (some (k, v))) fuel (j + 1) (j + 1)

-- The slots with a hole, after the walk has passed the slots up to j. Ways may
-- lead over the hole, but only to slots that are still ahead.
structure Shifting (slots : Fin n → Option (K × V)) (hole j : Fin n) : Prop where
  unique : ∀ {a b : Fin n} {k : K} {v w : V}, a ≠ hole → b ≠ hole →
    slots a = some (k, v) → slots b = some (k, w) → a = b
  reach : ∀ {a : Fin n} {k : K} {v : V}, a ≠ hole → slots a = some (k, v) →
    ∀ x, x ≠ hole → gap (home k) x < gap (home k) a → slots x ≠ none
  ahead : ∀ {a : Fin n} {k : K} {v : V}, a ≠ hole → slots a = some (k, v) →
    gap hole a ≤ gap hole j → gap (home k) a ≤ gap (home k) hole

variable {home} {slots : Fin n → Option (K × V)} {hole j : Fin n}

omit [NeZero n] in
theorem Chained.shifting (hchain : Chained home slots) (hole : Fin n) :
    Shifting home slots hole hole := by
  constructor
  · intro a b k v w _ _ ha hb
    exact hchain.unique ha hb
  · intro a k v _ ha x _ hx
    exact hchain.reach ha x hx
  · intro a k v hne _ hle
    rw [gap_self] at hle
    exact absurd (eq_of_gap_eq (a := hole) (by rw [gap_self]; omega)) hne

section

variable (hshift : Shifting home slots hole j)

include hshift

theorem Shifting.chained (hnext : j + 1 ≠ hole)
    (hempty : slots (j + 1) = none) : Chained home (update slots hole none) := by
  have hne : ∀ {a : Fin n} {k : K} {v : V}, update slots hole none a = some (k, v) →
      a ≠ hole ∧ slots a = some (k, v) := by
    intro a k v ha
    have hah : a ≠ hole := by
      rintro rfl
      rw [update_self] at ha
      cases ha
    exact ⟨hah, by rwa [update_of_ne hah] at ha⟩
  constructor
  · intro a b k v w ha hb
    exact hshift.unique (hne ha).1 (hne hb).1 (hne ha).2 (hne hb).2
  · intro a k v ha x hx
    obtain ⟨hah, hslot⟩ := hne ha
    by_cases hxh : x = hole
    · subst hxh
      exfalso
      -- The way over the hole to a leads over the empty slot too.
      have hbeyond : gap x j < gap x a := by
        by_contra hle
        have hback := hshift.ahead hah hslot (by omega)
        omega
      have hsucc := gap_succ hnext
      have hsplit := gap_add hx.le
      have hjsum : gap (home k) x + gap x (j + 1) = gap (home k) (j + 1) :=
        gap_add_of_lt (by have := gap_lt (home k) a; omega)
      by_cases hlast : j + 1 = a
      · rw [hlast, hslot] at hempty
        cases hempty
      · have hgap : gap x (j + 1) ≠ gap x a := fun h => hlast (eq_of_gap_eq h)
        exact hshift.reach hah hslot (j + 1) hnext (by omega) hempty
    · rw [update_of_ne hxh]
      exact hshift.reach hah hslot x hxh hx

theorem Shifting.skip {k : K} {v : V} (hnext : j + 1 ≠ hole) (hslot : slots (j + 1) = some (k, v))
    (hafter : gap (home k) (j + 1) < gap hole (j + 1)) : Shifting home slots hole (j + 1) := by
  refine ⟨hshift.unique, hshift.reach, ?_⟩
  intro a k' v' hah ha hle
  have hsucc := gap_succ hnext
  by_cases hlast : a = j + 1
  · subst hlast
    rw [hslot] at ha
    obtain ⟨rfl, -⟩ := ha
    by_contra hlt
    have hsplit := @gap_add n (home k) hole (j + 1) (by omega)
    omega
  · have hgap : gap hole a ≠ gap hole (j + 1) := fun h => hlast (eq_of_gap_eq h)
    exact hshift.ahead hah ha (by omega)

theorem Shifting.move {k : K} {v : V} (hnext : j + 1 ≠ hole) (hslot : slots (j + 1) = some (k, v))
    (hover : ¬ gap (home k) (j + 1) < gap hole (j + 1)) :
    Shifting home (update slots hole (some (k, v))) (j + 1) (j + 1) := by
  have hway := gap_add_of_le (not_lt.mp hover)
  constructor
  · intro a b k' w w' ha hb hka hkb
    by_cases hah : a = hole <;> by_cases hbh : b = hole <;>
      simp only [hah, hbh, update_self, update_of_ne, ne_eq, not_false_eq_true] at hka hkb ⊢
    · obtain ⟨rfl, -⟩ := hka
      exact absurd (hshift.unique hbh hnext hkb hslot) hb
    · obtain ⟨rfl, -⟩ := hkb
      exact absurd (hshift.unique hah hnext hka hslot) ha
    · exact hshift.unique hah hbh hka hkb
  · intro a k' w ha hka x hxn hx
    by_cases hxh : x = hole
    · rw [hxh, update_self]
      nofun
    rw [update_of_ne hxh]
    by_cases hah : a = hole
    · subst hah
      rw [update_self] at hka
      obtain ⟨rfl, -⟩ := hka
      exact hshift.reach hnext hslot x hxh (by omega)
    · rw [update_of_ne hah] at hka
      exact hshift.reach hah hka x hxh hx
  · intro a k' w ha _ hle
    rw [gap_self] at hle
    exact absurd (eq_of_gap_eq (a := j + 1) (by rw [gap_self]; omega)) ha

-- The walk ends at an empty slot, and keeps every pair but the one in the hole.
theorem backShift_spec {fuel : Nat} {e : Fin n}
    (he : slots e = none) (hahead : gap hole j < gap hole e) (hfuel : gap j e ≤ fuel) :
    Chained home (backShift home slots fuel hole j) ∧
      ∀ k v, (∃ i, backShift home slots fuel hole j i = some (k, v)) ↔
        ∃ i, i ≠ hole ∧ slots i = some (k, v) := by
  induction fuel generalizing slots hole j with
  | zero =>
    have hje : j = e := eq_of_gap_eq (a := j) (by rw [gap_self]; omega)
    rw [hje] at hahead
    omega
  | succ fuel ih =>
    have hje : e ≠ j := by
      rintro rfl
      omega
    have hstep := gap_from_succ hje
    have hsplit := gap_add hahead.le
    have hnext : j + 1 ≠ hole := by
      rintro rfl
      omega
    have hsucc := gap_succ hnext
    unfold backShift
    cases hslot : slots (j + 1) with
    | none =>
      dsimp only
      refine ⟨hshift.chained hnext hslot, fun k v => ?_⟩
      constructor
      · rintro ⟨i, hi⟩
        have hih : i ≠ hole := by
          rintro rfl
          rw [update_self] at hi
          cases hi
        exact ⟨i, hih, by rwa [update_of_ne hih] at hi⟩
      · rintro ⟨i, hih, hi⟩
        exact ⟨i, by rwa [update_of_ne hih]⟩
    | some pair =>
      obtain ⟨k, v⟩ := pair
      have hne : e ≠ j + 1 := by
        rintro rfl
        rw [he] at hslot
        cases hslot
      have hgap : gap hole (j + 1) ≠ gap hole e := fun h => hne (eq_of_gap_eq h).symm
      dsimp only
      by_cases hafter : gap (home k) (j + 1) < gap hole (j + 1)
      · rw [if_pos hafter]
        exact ih (hshift.skip hnext hslot hafter) he (by omega) (by omega)
      rw [if_neg hafter]
      have hhole : e ≠ hole := by
        rintro rfl
        rw [gap_self] at hahead
        omega
      obtain ⟨hchain, hpairs⟩ := ih (hshift.move hnext hslot hafter)
        (by rwa [update_of_ne hhole]) (by rw [gap_self]; omega) (by omega)
      refine ⟨hchain, fun k' v' => (hpairs k' v').trans ?_⟩
      constructor
      · rintro ⟨i, hi, hpair⟩
        by_cases hih : i = hole
        · subst hih
          rw [update_self] at hpair
          exact ⟨j + 1, hnext, hslot.trans hpair⟩
        · exact ⟨i, hih, by rwa [update_of_ne hih] at hpair⟩
      · rintro ⟨i, hih, hpair⟩
        by_cases hi : i = j + 1
        · subst hi
          exact ⟨hole, hnext.symm, by rw [update_self, ← hslot, hpair]⟩
        · exact ⟨i, hi, by rwa [update_of_ne hih]⟩

end

theorem Chained.delete [DecidableEq K] {m : K → Option V} {key : K} {v : V}
    (hchain : Chained home slots) (hrep : Represents slots m) {i : Fin n}
    (h : slots i = some (key, v)) (hempty : ∃ e, slots e = none) :
    Chained home (backShift home slots n i i) ∧
      Represents (backShift home slots n i i) (update m key none) := by
  obtain ⟨e, he⟩ := hempty
  have hpos : gap i e ≠ 0 := by
    intro hzero
    have heq : e = i := eq_of_gap_eq (a := i) (by rw [hzero, gap_self])
    rw [heq, h] at he
    cases he
  obtain ⟨hchained, hpairs⟩ := backShift_spec (hchain.shifting i) he (by rw [gap_self]; omega)
    (gap_lt i e).le
  refine ⟨hchained, fun k w => ?_⟩
  rw [hpairs k w]
  by_cases hk : k = key
  · subst hk
    rw [update_self]
    constructor
    · nofun
    · rintro ⟨j, hj, hslot⟩
      exact absurd (hchain.unique hslot h) hj
  · rw [update_of_ne hk, hrep k w]
    constructor
    · rintro ⟨j, hslot⟩
      refine ⟨j, ?_, hslot⟩
      rintro rfl
      rw [h] at hslot
      simp only [Option.some.injEq, Prod.mk.injEq] at hslot
      exact hk hslot.1.symm
    · rintro ⟨j, -, hslot⟩
      exact ⟨j, hslot⟩

end Wadjet.Data
