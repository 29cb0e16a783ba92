import Wadjet.Engine.Exec.Sort.Model

namespace Wadjet.Engine.Exec.Sort

open Wadjet.Data List

variable {R V : Type} {less : R → R → Bool}

section

variable (hless : IsOrder fun a b => !less b a)

include hless

theorem offer_spec {h gone seen : List R}
    (hh : Heap.Ordered (fun a b => less b a) h) (hperm : (h ++ gone).Perm seen)
    (hgone : ∀ a ∈ h, ∀ y ∈ gone, less y a = false) (hne : h ≠ []) (e : R) :
    Heap.Ordered (fun a b => less b a) (offer less h e) ∧ (offer less h e).length = h.length ∧
      ∃ gone', (offer less h e ++ gone').Perm (seen ++ [e]) ∧
        ∀ a ∈ offer less h e, ∀ y ∈ gone', less y a = false := by
  have hflip : IsOrder fun a b => !(fun a b => less b a) b a :=
    ⟨fun a b c hab hbc => hless.trans c b a hbc hab, fun a b => (hless.total b a)⟩
  obtain ⟨root, rest, rfl⟩ := exists_cons_of_ne_nil hne
  have hroot : ∀ a ∈ root :: rest, less root a = false := fun a ha => Heap.not_less_root hflip hh ha
  unfold offer
  dsimp only
  by_cases he : less e root = true
  · rw [if_pos he]
    obtain ⟨hfix, hordered⟩ := Heap.fixRoot_spec hflip e hh
    have hback := Heap.not_less_of_less hless he
    refine ⟨hordered, hfix.length_eq, root :: gone, ?_, fun a ha y hy => ?_⟩
    · calc List.Perm _ (e :: rest ++ root :: gone) := hfix.append_right _
        List.Perm _ (e :: (root :: rest ++ gone)) := perm_middle.cons e
        List.Perm _ (e :: seen) := hperm.cons e
        List.Perm _ (seen ++ [e]) := (perm_append_singleton e seen).symm
    · obtain rfl | ha := mem_cons.mp (hfix.mem_iff.mp ha)
      · obtain rfl | hy := mem_cons.mp hy
        · exact hback
        · exact Heap.not_less_trans hless (hgone root mem_cons_self y hy) hback
      · have ha := mem_cons_of_mem root ha
        obtain rfl | hy := mem_cons.mp hy
        · exact hroot a ha
        · exact hgone a ha y hy
  · rw [if_neg he]
    refine ⟨hh, rfl, e :: gone, ?_, fun a ha y hy => ?_⟩
    · calc List.Perm _ (e :: (root :: rest ++ gone)) := perm_middle
        List.Perm _ (e :: seen) := hperm.cons e
        List.Perm _ (seen ++ [e]) := (perm_append_singleton e seen).symm
    · obtain rfl | hy := mem_cons.mp hy
      · exact Heap.not_less_trans hless (by simpa using he) (hroot a ha)
      · exact hgone a ha y hy

theorem foldl_offer_spec (entries : List R) {h gone seen : List R}
    (hh : Heap.Ordered (fun a b => less b a) h) (hperm : (h ++ gone).Perm seen)
    (hgone : ∀ a ∈ h, ∀ y ∈ gone, less y a = false) (hne : h ≠ []) :
    (entries.foldl (offer less) h).length = h.length ∧
      ∃ gone', (entries.foldl (offer less) h ++ gone').Perm (seen ++ entries) ∧
        ∀ a ∈ entries.foldl (offer less) h, ∀ y ∈ gone', less y a = false := by
  induction entries generalizing h gone seen with
  | nil => exact ⟨rfl, gone, by rwa [append_nil], hgone⟩
  | cons e entries ih =>
    obtain ⟨hordered, hlength, gone', hperm', hgone'⟩ := offer_spec hless hh hperm hgone hne e
    have hne' : offer less h e ≠ [] := by
      intro hnil
      rw [hnil] at hlength
      exact hne (length_eq_zero_iff.mp hlength.symm)
    obtain ⟨hlen, hrest⟩ := ih hordered hperm' hgone' hne'
    rw [append_assoc] at hrest
    exact ⟨hlen.trans hlength, hrest⟩

theorem isOrder_flip : IsOrder fun a b => !(fun a b => less b a) b a :=
  ⟨fun a b c hab hbc => hless.trans c b a hbc hab, fun a b => hless.total b a⟩

theorem topNHeap_tops {k : Nat} {entries : List R} (hk : 0 < k) (hlen : k ≤ entries.length) :
    (topNHeap less k entries).length = k ∧
      Tops (fun a b => !less b a) k (topNHeap less k entries) entries := by
  obtain ⟨hperm, hordered⟩ := Heap.init_spec (isOrder_flip hless) (entries.take k)
  have hlength : (Heap.init (fun a b => less b a) (entries.take k)).length = k := by
    rw [hperm.length_eq, length_take]
    omega
  have hne : Heap.init (fun a b => less b a) (entries.take k) ≠ [] := by
    intro hnil
    rw [hnil] at hlength
    exact absurd hlength (Nat.ne_of_lt hk)
  have hstart : (Heap.init (fun a b => less b a) (entries.take k) ++ []).Perm (entries.take k) := by
    rwa [append_nil]
  obtain ⟨hkept, gone, hall, hgone⟩ := foldl_offer_spec hless (entries.drop k) hordered hstart
    (fun _ _ _ h => absurd h not_mem_nil) hne
  rw [take_append_drop] at hall
  refine ⟨hkept.trans hlength, gone, hall, fun y hy => ?_⟩
  have hcount : (topNHeap less k entries).countP (fun a => !less y a) =
      (topNHeap less k entries).length :=
    countP_eq_length.mpr fun a ha => by simpa using hgone a ha y hy
  rw [hcount]
  exact Nat.le_of_eq (hkept.trans hlength).symm

theorem selectSortedEntries_spec (limit : Option Nat) (entries : List R) :
    Reduces (fun a b => !less b a) limit (selectSortedEntries less limit entries) entries ∧
      (selectSortedEntries less limit entries).Pairwise (fun a b => !less b a) ∧
      ∀ k ∈ limit, (selectSortedEntries less limit entries).length ≤ k := by
  have hsorted := hless.stable_mergeSort entries
  unfold selectSortedEntries sliceStable
  split
  case h_1 => exact ⟨hsorted.kept, hsorted.ordered, nofun⟩
  case h_2 =>
    refine ⟨⟨entries, .refl _, fun _ _ => Nat.zero_le _⟩, .nil, fun k hk => ?_⟩
    exact Nat.zero_le k
  case h_3 k hpos =>
    by_cases hk : k < entries.length / 2
    · rw [if_pos hk]
      obtain ⟨hlength, htops⟩ := topNHeap_tops hless (Nat.pos_of_ne_zero hpos) (by omega : k ≤ entries.length)
      have hperm := mergeSort_perm (topNHeap less k entries) fun a b => !less b a
      refine ⟨htops.of_perm hperm.symm (.refl _), (hless.arranges_mergeSort _).ordered, fun n hn => ?_⟩
      cases hn
      exact Nat.le_of_eq (hperm.length_eq.trans hlength)
    · rw [if_neg hk]
      refine ⟨?_, hsorted.ordered.take, fun n hn => ?_⟩
      · exact (Tops.of_sorted hsorted.ordered).of_perm (.refl _) (mergeSort_perm entries _)
      · cases hn
        rw [length_take]
        omega

end

section Agreement

variable {le le' : R → R → Bool} {kept all : List R} (hagree : ∀ a ∈ all, ∀ b ∈ all, le a b = le' a b)

include hagree

theorem mergeSort_congr : all.mergeSort le = all.mergeSort le' := by
  have hmap := @map_mergeSort _ _ le le' id all hagree
  rwa [map_id, map_id] at hmap

theorem tops_congr {k : Nat} (h : Tops le k kept all) : Tops le' k kept all := by
  obtain ⟨rest, hperm, hrest⟩ := h
  refine ⟨rest, hperm, fun y hy => Nat.le_trans (hrest y hy) ?_⟩
  have hy := hperm.mem_iff.mp (mem_append_right kept hy)
  refine countP_mono_left fun a ha hay => ?_
  rw [← hagree a (hperm.mem_iff.mp (mem_append_left rest ha)) y hy]
  exact hay

end Agreement

theorem subset_of_tops {le : R → R → Bool} {k : Nat} {kept all : List R} (h : Tops le k kept all) {a : R}
    (ha : a ∈ kept) : a ∈ all := by
  obtain ⟨rest, hperm, -⟩ := h
  exact hperm.mem_iff.mp (mem_append_left rest ha)

variable {cfg : SortConfig R V}

theorem sortBatches_spec (hkeys : ∀ key ∈ cfg.keys, IsKernel key.kernel) (batches : List (Batch R)) :
    Reduces (keysLe cfg.keys) cfg.limit (sortBatches cfg batches) (batches.flatMap Batch.active) ∧
      (sortBatches cfg batches).Pairwise (fun a b => keysLe cfg.keys a b) ∧
      ∀ k ∈ cfg.limit, (sortBatches cfg batches).length ≤ k := by
  have hless : IsOrder fun a b => !sortEntriesLess (resolveSortKeysForBatches cfg.keys batches) b a := by
    refine isOrder_sortEntriesLess fun key hkey => ?_
    obtain ⟨key, hmem, rfl⟩ := mem_map.mp hkey
    exact isKernel_resolve (hkeys key hmem) _
  have hagree : ∀ a ∈ batches.flatMap Batch.active, ∀ b ∈ batches.flatMap Batch.active,
      (!sortEntriesLess (resolveSortKeysForBatches cfg.keys batches) b a) = keysLe cfg.keys a b := by
    intro a ha b hb
    obtain ⟨batch, hbatch, ha⟩ := mem_flatMap.mp ha
    obtain ⟨batch', hbatch', hb⟩ := mem_flatMap.mp hb
    exact not_less_eq_keysLe hkeys (allNullFree · batches)
      (fun _ => null_of_allNullFree hbatch (Batch.mem_rows ha))
      fun _ => null_of_allNullFree hbatch' (Batch.mem_rows hb)
  obtain ⟨hreduces, hordered, hlength⟩ := selectSortedEntries_spec hless cfg.limit
    (batches.flatMap Batch.active)
  unfold sortBatches
  generalize sortEntriesLess (resolveSortKeysForBatches cfg.keys batches) = less at *
  generalize batches.flatMap Batch.active = entries at *
  cases hlimit : cfg.limit with
  | none =>
    have hstable := (isOrder_keysLe hkeys).stable_mergeSort entries
    have hselect : selectSortedEntries less none entries = entries.mergeSort (keysLe cfg.keys) :=
      mergeSort_congr hagree
    rw [hselect]
    exact ⟨hstable.kept, hstable.ordered, nofun⟩
  | some k =>
    rw [hlimit] at hreduces hordered hlength
    refine ⟨tops_congr hagree hreduces, ?_, hlength⟩
    refine hordered.imp_of_mem fun ha hb hab => ?_
    rw [← hagree _ (subset_of_tops hreduces ha) _ (subset_of_tops hreduces hb)]
    exact hab

end Wadjet.Engine.Exec.Sort
