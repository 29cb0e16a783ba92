import Mathlib.Data.List.Nodup
import Mathlib.Data.List.Perm.Subperm

-- The first rows of an ordered list, taken from parts of it.
namespace Wadjet.Data

open List

-- What a comparator has to be for a sort by it to be defined.
structure IsOrder {α : Type} (le : α → α → Bool) : Prop where
  trans : ∀ a b c, le a b → le b c → le a c
  total : ∀ a b, le a b ∨ le b a

structure Arranges {α : Type} (le : α → α → Bool) (rows out : List α) : Prop where
  perm : out.Perm rows
  ordered : out.Pairwise fun a b => le a b

variable {α : Type} {le : α → α → Bool}

namespace IsOrder

theorem refl (hle : IsOrder le) (a : α) : le a a := by
  rcases hle.total a a with h | h <;> exact h

theorem arranges_mergeSort (hle : IsOrder le) (rows : List α) : Arranges le rows (rows.mergeSort le) where
  perm := mergeSort_perm rows le
  ordered := pairwise_mergeSort hle.trans (fun a b => by simpa using hle.total a b) rows

end IsOrder

namespace Arranges

variable {rows rows' out : List α}

theorem congr (h : Arranges le rows out) (hperm : rows.Perm rows') : Arranges le rows' out :=
  ⟨h.perm.trans hperm, h.ordered⟩

end Arranges

theorem arranges_of_ties (hle : ∀ a b, le a b) {rows out : List α} (h : out.Perm rows) : Arranges le rows out :=
  ⟨h, pairwise_of_forall fun a b => hle a b⟩

private theorem length_filter_before (hle : IsOrder le) {rows : List α} (h : rows.Pairwise fun a b => le a b)
    {i : Nat} {row : α} (hrow : rows[i]? = some row) : (rows.filter fun a => !le row a).length ≤ i := by
  obtain ⟨hi, hget⟩ := List.getElem?_eq_some_iff.mp hrow
  have hdrop : (rows.drop i).filter (fun a => !le row a) = [] := by
    rw [filter_eq_nil_iff]
    intro a ha
    have hpairs : (rows.drop i).Pairwise fun a b => le a b := h.drop
    rw [drop_eq_getElem_cons hi, hget] at ha hpairs
    rcases mem_cons.mp ha with rfl | ha
    · simp [hle.refl]
    · simp [(pairwise_cons.mp hpairs).1 a ha]
  calc (rows.filter fun a => !le row a).length
      = ((rows.take i).filter fun a => !le row a).length := by
        conv_lhs => rw [← take_append_drop i rows]
        rw [filter_append, hdrop, append_nil]
    _ ≤ (rows.take i).length := length_filter_le _ _
    _ ≤ i := length_take_le i rows

theorem exists_arranges_take (hle : IsOrder le) {rows extra : List α} {k : Nat}
    (h : rows.Pairwise fun a b => le a b)
    (hextra : ∀ y ∈ extra, ∃ block : List α, block.Subperm rows ∧ k ≤ block.length ∧ ∀ a ∈ block, le a y) :
    ∃ out, Arranges le (rows ++ extra) out ∧ out.take k = rows.take k := by
  have hbefore : ∀ x ∈ rows.take k, ∀ y ∈ extra, le x y := by
    intro x hx y hy
    obtain ⟨block, hsub, hk, hblock⟩ := hextra y hy
    by_contra hxy
    obtain ⟨i, hi⟩ := getElem?_of_mem hx
    have hik : i < k := by
      have := (List.getElem?_eq_some_iff.mp hi).1
      rw [length_take] at this
      omega
    have hstrict : ∀ a ∈ block, (!le x a) := by
      intro a ha
      by_contra hxa
      exact hxy (hle.trans x a y (by simpa using hxa) (hblock a ha))
    have hcount := length_filter_before hle h (show rows[i]? = some x by rwa [getElem?_take_of_lt hik] at hi)
    have hfilter : block.Subperm (rows.filter fun a => !le x a) := by
      have := hsub.filter (fun a => !le x a)
      rwa [filter_eq_self.mpr hstrict] at this
    have := hfilter.length_le
    omega
  refine ⟨rows.take k ++ (rows.drop k ++ extra).mergeSort le, ⟨?_, ?_⟩, ?_⟩
  · calc List.Perm _ (rows.take k ++ (rows.drop k ++ extra)) :=
          (mergeSort_perm _ le).append_left _
      List.Perm _ (rows ++ extra) := by rw [← append_assoc, take_append_drop]
  · refine pairwise_append.mpr ⟨h.take, (hle.arranges_mergeSort _).ordered, fun x hx y hy => ?_⟩
    rcases mem_append.mp (mem_mergeSort.mp hy) with hy | hy
    · have hsplit := h
      rw [← take_append_drop k rows] at hsplit
      exact (pairwise_append.mp hsplit).2.2 x hx y hy
    · exact hbefore x hx y hy
  · by_cases hlen : k ≤ rows.length
    · rw [take_append_of_le_length (by simp [hlen]), take_take, Nat.min_self]
    have hnone : extra = [] := by
      rw [eq_nil_iff_forall_not_mem]
      intro y hy
      obtain ⟨block, hsub, hk, -⟩ := hextra y hy
      have := hsub.length_le
      omega
    have hall : rows.take k = rows := take_of_length_le (by omega)
    rw [hnone, drop_of_length_le (by omega : rows.length ≤ k)]
    simp [hall]

variable {parts : List (List α)} {k : Nat} {out : List α}

theorem perm_take_drop_flatten (k : Nat) (parts : List (List α)) :
    ((parts.map (take k)).flatten ++ (parts.map (drop k)).flatten).Perm parts.flatten := by
  induction parts with
  | nil => exact List.Perm.refl _
  | cons part rest ih =>
    simp only [map_cons, flatten_cons]
    calc List.Perm _ (part.take k ++ (part.drop k ++
            ((rest.map (take k)).flatten ++ (rest.map (drop k)).flatten))) := by
          rw [append_assoc]
          refine List.Perm.append_left _ ?_
          rw [← append_assoc, ← append_assoc]
          exact perm_append_comm.append_right _
      List.Perm _ (part ++ rest.flatten) := by
          rw [← append_assoc, take_append_drop]
          exact ih.append_left part

private theorem exists_part_of_mem_drop (hparts : ∀ part ∈ parts, part.Pairwise fun a b => le a b) {y : α}
    (hy : y ∈ (parts.map (drop k)).flatten) :
    ∃ part ∈ parts, k ≤ (part.take k).length ∧ ∀ a ∈ part.take k, le a y := by
  obtain ⟨rest, hrest, hy⟩ := mem_flatten.mp hy
  obtain ⟨part, hpart, rfl⟩ := mem_map.mp hrest
  refine ⟨part, hpart, ?_, fun a ha => ?_⟩
  · have := length_pos_of_mem hy
    rw [length_drop] at this
    rw [length_take]
    omega
  · have hsplit := hparts part hpart
    rw [← take_append_drop k part] at hsplit
    exact (pairwise_append.mp hsplit).2.2 a ha y hy

-- The first `k` rows of the first `k` rows of each part are first among all.
theorem exists_arranges_of_parts (hle : IsOrder le) (hparts : ∀ part ∈ parts, part.Pairwise fun a b => le a b)
    (hout : Arranges le (parts.map (take k)).flatten out) :
    ∃ all, Arranges le parts.flatten all ∧ all.take k = out.take k := by
  have hextra : ∀ y ∈ (parts.map (drop k)).flatten,
      ∃ block : List α, block.Subperm out ∧ k ≤ block.length ∧ ∀ a ∈ block, le a y := by
    intro y hy
    obtain ⟨part, hpart, hk, hbefore⟩ := exists_part_of_mem_drop hparts hy
    refine ⟨part.take k, ?_, hk, hbefore⟩
    exact (sublist_flatten_of_mem (mem_map_of_mem hpart)).subperm.trans hout.perm.symm.subperm
  obtain ⟨all, hall, htake⟩ := exists_arranges_take hle hout.ordered hextra
  exact ⟨all, hall.congr ((hout.perm.append_right _).trans (perm_take_drop_flatten k parts)), htake⟩

theorem exists_arranges_of_distinct_parts (hle : IsOrder le)
    (hparts : ∀ part ∈ parts, part.Pairwise fun a b => le a b) (hnodup : ∀ part ∈ parts, part.Nodup)
    (hout : out.Pairwise fun a b => le a b) (houtNodup : out.Nodup)
    (hmem : ∀ a, a ∈ out ↔ a ∈ (parts.map (take k)).flatten) {whole : List α} (hwhole : whole.Nodup)
    (hwholeMem : ∀ a, a ∈ whole ↔ a ∈ parts.flatten) :
    ∃ all, Arranges le whole all ∧ all.take k = out.take k := by
  classical
  have hsub : ∀ a ∈ out, a ∈ whole := by
    intro a ha
    rw [hwholeMem]
    exact ((perm_take_drop_flatten k parts).mem_iff).mp (mem_append_left _ ((hmem a).mp ha))
  have hextra : ∀ y ∈ whole.filter fun a => a ∉ out,
      ∃ block : List α, block.Subperm out ∧ k ≤ block.length ∧ ∀ a ∈ block, le a y := by
    intro y hy
    obtain ⟨hy, hnot⟩ := mem_filter.mp hy
    have hy := (perm_take_drop_flatten k parts).mem_iff.mpr ((hwholeMem y).mp hy)
    rcases mem_append.mp hy with hy | hy
    · exact absurd ((hmem y).mpr hy) (by simpa using hnot)
    · obtain ⟨part, hpart, hk, hbefore⟩ := exists_part_of_mem_drop hparts hy
      refine ⟨part.take k, ?_, hk, hbefore⟩
      refine subperm_of_subset ((hnodup part hpart).sublist (take_sublist _ _)) fun a ha => ?_
      exact (hmem a).mpr (mem_flatten.mpr ⟨part.take k, mem_map_of_mem hpart, ha⟩)
  obtain ⟨all, hall, htake⟩ := exists_arranges_take hle hout hextra
  refine ⟨all, hall.congr ?_, htake⟩
  refine (perm_ext_iff_of_nodup ?_ hwhole).mpr fun a => ?_
  · refine nodup_append.mpr ⟨houtNodup, hwhole.filter _, fun a ha b hb => ?_⟩
    rintro rfl
    exact absurd ha (by simpa using (mem_filter.mp hb).2)
  · by_cases ha : a ∈ out
    · simp [ha, hsub a ha]
    · simp [ha]

end Wadjet.Data
