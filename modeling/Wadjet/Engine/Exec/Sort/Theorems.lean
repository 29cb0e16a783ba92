import Wadjet.Engine.Exec.Sort.Merge

namespace Wadjet.Engine.Exec.Sort

open Wadjet.Data List

section Chunks

variable {α : Type} {size : Nat}

theorem flatten_chunks (hsize : 0 < size) (l : List α) : (chunks size l).flatten = l := by
  induction l using chunks.induct size with
  | case1 l h =>
    obtain h | rfl := h
    · omega
    · rw [chunks, if_pos (.inr rfl)]
      rfl
  | case2 l h ih => rw [chunks, if_neg h, flatten_cons, ih, take_append_drop]

end Chunks

variable {R V : Type} {cfg : SortConfig R V} (hkeys : ∀ key ∈ cfg.keys, IsKernel key.kernel)

structure RunsOf (cfg : SortConfig R V) (runs : List (List (List R))) (rows : List R) : Prop where
  reduces : Reduces (keysLe cfg.keys) cfg.limit (runs.map flatten).flatten rows
  sorted : ∀ run ∈ runs, run.flatten.Pairwise fun a b => keysLe cfg.keys a b

include hkeys

variable {rows : List R}

theorem mergeGroup_runsOf {group : List (List (List R))} (h : RunsOf cfg group rows) :
    RunsOf cfg (mergeGroup cfg group) rows := by
  have hle := isOrder_keysLe hkeys
  unfold mergeGroup mergeRunsToFile
  by_cases hone : group.length = 1
  · rwa [if_pos hone]
  rw [if_neg hone]
  by_cases hzero : cfg.limit = some 0
  · rw [if_pos hzero]
    refine ⟨?_, nofun⟩
    rw [hzero]
    exact ⟨rows, .refl _, fun _ _ => Nat.zero_le _⟩
  · rw [if_neg hzero]
    have hwritten : ∀ k ∈ cfg.limit, 0 < k := by
      intro k hk
      refine Nat.pos_of_ne_zero ?_
      rintro rfl
      exact hzero hk
    have hfuel : (group.map flatten).flatten.length <
        (group.map fun r => r.flatten.length).sum + 1 := by
      rw [length_flatten, map_map]
      exact Nat.lt_succ_self _
    obtain ⟨out, hout, hflat⟩ := mergeToBatches_spec hkeys _ (heapOf_newRunMerger hkeys group)
      hfuel hwritten
    have hstable := hout.stable hle fun run hrun => by
      obtain ⟨r, hr, rfl⟩ := mem_map.mp hrun
      exact h.sorted r hr
    obtain ⟨hreduces, hsorted⟩ := hstable.reduces hle cfg.limit
    rw [← hflat] at hreduces hsorted
    constructor
    · rw [map_singleton, flatten_singleton]
      exact hreduces.trans hle h.reduces
    · intro run hrun
      rw [mem_singleton.mp hrun]
      exact hsorted

theorem mergeGroups_runsOf {groups : List (List (List (List R)))}
    (h : RunsOf cfg groups.flatten rows) : RunsOf cfg (groups.flatMap (mergeGroup cfg)) rows := by
  have hle := isOrder_keysLe hkeys
  have hgroup : ∀ group ∈ groups, RunsOf cfg (mergeGroup cfg group) (group.map flatten).flatten :=
    fun group hgroup => mergeGroup_runsOf hkeys
      ⟨.refl _, fun run hrun => h.sorted run (mem_flatten.mpr ⟨group, hgroup, hrun⟩)⟩
  constructor
  · refine Reduces.trans hle ?_ h.reduces
    clear h
    induction groups with
    | nil => exact .refl _
    | cons group rest ih =>
      rw [flatMap_cons, flatten_cons, map_append, map_append, flatten_append,
        flatten_append]
      exact (hgroup group mem_cons_self).reduces.append
        (ih fun g hg => hgroup g (mem_cons_of_mem group hg))
  · intro run hrun
    obtain ⟨group, hmem, hrun⟩ := mem_flatMap.mp hrun
    exact (hgroup group hmem).sorted run hrun

theorem preMergeRuns_runsOf {runs : List (List (List R))} (h : RunsOf cfg runs rows) :
    RunsOf cfg (preMergeRuns cfg runs) rows := by
  induction runs using preMergeRuns.induct cfg with
  | case1 runs hlong ih =>
    rw [preMergeRuns, if_pos hlong]
    refine ih (mergeGroups_runsOf hkeys ?_)
    rwa [flatten_chunks (by have := cfg.two_le_fanIn; omega)]
  | case2 runs hshort => rwa [preMergeRuns, if_neg hshort]

structure Holds (cfg : SortConfig R V) (s : SortState R) (rows : List R) : Prop where
  reduces : Reduces (keysLe cfg.keys) cfg.limit
    ((s.runFiles.map flatten).flatten ++ s.batches.flatMap Batch.active) rows
  sorted : ∀ run ∈ s.runFiles, run.flatten.Pairwise fun a b => keysLe cfg.keys a b

variable {s : SortState R}

theorem holds_compactTopK (h : Holds cfg s rows) :
    Holds cfg (compactTopK cfg s) rows := by
  refine ⟨Reduces.trans (isOrder_keysLe hkeys) ?_ h.reduces, h.sorted⟩
  have hsort := (sortBatches_spec hkeys s.batches).1
  unfold compactTopK
  rw [flatMap_singleton]
  exact (Reduces.refl _).append hsort

theorem holds_consume (h : Holds cfg s rows) (b : Batch R) (heavy : Bool) :
    Holds cfg (consume cfg s b heavy) (rows ++ b.active) := by
  have happend : Holds cfg { s with batches := s.batches ++ [b] } (rows ++ b.active) := by
    refine ⟨?_, h.sorted⟩
    rw [flatMap_append, flatMap_singleton, ← append_assoc]
    exact h.reduces.append (.refl _)
  unfold consume
  dsimp only
  split
  · exact happend
  · split
    · exact holds_compactTopK hkeys happend
    · exact happend

theorem holds_flushSpill (h : Holds cfg s rows) :
    Holds cfg (flushSpill cfg s) rows := by
  unfold flushSpill
  split
  · exact h
  · obtain ⟨hreduces, hsorted, -⟩ := sortBatches_spec hkeys s.batches
    have hflat : ((writeSortedRun cfg (sortBatches cfg s.batches)).map flatten).flatten =
        sortBatches cfg s.batches := by
      unfold writeSortedRun
      split
      case isTrue hnil => exact hnil.symm
      case isFalse =>
        rw [map_singleton, flatten_singleton, flatten_chunks cfg.batchSize_pos]
    constructor
    · refine Reduces.trans (isOrder_keysLe hkeys) ?_ h.reduces
      rw [flatMap_nil, append_nil, map_append, flatten_append, hflat]
      exact (Reduces.refl _).append hreduces
    · intro run hrun
      obtain hrun | hrun := mem_append.mp hrun
      · exact h.sorted run hrun
      · unfold writeSortedRun at hrun
        split at hrun
        · cases hrun
        · rw [mem_singleton.mp hrun, flatten_chunks cfg.batchSize_pos]
          exact hsorted

variable (events : List (SortEvent R))

theorem holds_events
    (h : Holds cfg s rows) : Holds cfg (events.foldl (SortState.apply cfg) s) (rows ++ arrivals events) := by
  induction events generalizing s rows with
  | nil => rwa [arrivals, append_nil]
  | cons event rest ih =>
    cases event with
    | consume b heavy =>
      rw [arrivals, ← append_assoc]
      exact ih (holds_consume hkeys h b heavy)
    | spill => exact ih (holds_flushSpill hkeys h)

theorem holds_runEvents : Holds cfg (runEvents cfg events) (arrivals events) :=
  holds_events hkeys events ⟨.refl _, fun _ hrun => absurd hrun not_mem_nil⟩

omit hkeys in
theorem streams_columnar (sorted : List (List R)) (pos : Nat) :
    Streams cfg (.columnar sorted pos) (sorted.drop pos).flatten := by
  generalize hn : sorted.length - pos = n
  induction n generalizing pos with
  | zero =>
    have hnext : (SortOutput.columnar sorted pos).next cfg = (none, .columnar sorted pos) := by
      rw [SortOutput.next, getElem?_eq_none (by omega)]
    rw [drop_eq_nil_of_le (by omega)]
    exact .stop hnext
  | succ n ih =>
    have hpos : pos < sorted.length := by omega
    have hnext : (SortOutput.columnar sorted pos).next cfg =
        (some sorted[pos], .columnar sorted (pos + 1)) := by
      rw [SortOutput.next, getElem?_eq_getElem hpos]
    rw [drop_eq_getElem_cons hpos]
    exact .batch hnext (ih (pos + 1) (by omega))

theorem streams_merging {h : List (RunCursor R)} {runs : List (List R)} (emitted : Nat)
    (hh : HeapOf cfg h runs) :
    ∃ out, Merges (keysLe cfg.keys) runs out ∧
      Streams cfg (.merging h emitted) (cut cfg.limit emitted out) := by
  generalize hn : runs.flatten.length = n
  induction n using Nat.strongRecOn generalizing h runs emitted with
  | ind n ih =>
    cases hpull : pullRows cfg cfg.batchSize h with
    | mk b h' =>
      cases b with
      | nil =>
        refine ⟨[], pullRows_nil hkeys hh hpull, ?_⟩
        rw [cut_nil]
        refine .stop (?_ : _ = (none, SortOutput.mergeDone))
        rw [SortOutput.next, nextMerged, hpull]
      | cons x b =>
        obtain ⟨runs', hheap, hlength, hmerges⟩ := length_pulled hkeys hh hpull
        rw [length_cons] at hlength
        cases hlimit : cfg.limit with
        | none =>
          obtain ⟨out, hout, hrest⟩ := ih _ (by omega) (emitted + (x :: b).length) hheap rfl
          refine ⟨x :: b ++ out, hmerges out hout, ?_⟩
          rw [hlimit] at hrest
          refine .batch ?_ hrest
          rw [SortOutput.next, nextMerged, hpull, hlimit]
        | some k =>
          by_cases hfull : k ≤ emitted
          · obtain ⟨out, hout⟩ := exists_merges hkeys hh
            refine ⟨out, hout, ?_⟩
            rw [cut, Nat.sub_eq_zero_of_le hfull]
            refine .stop (?_ : _ = (none, SortOutput.mergeDone))
            rw [SortOutput.next, nextMerged, hpull, hlimit]
            dsimp only
            rw [if_pos hfull]
          · obtain ⟨out, hout, hrest⟩ := ih _ (by omega)
              (emitted + ((x :: b).take (k - emitted)).length) hheap rfl
            refine ⟨x :: b ++ out, hmerges out hout, ?_⟩
            have hcut : cut (some k) emitted (x :: b ++ out) = (x :: b).take (k - emitted) ++
                cut (some k) (emitted + ((x :: b).take (k - emitted)).length) out := by
              rw [cut, take_append, length_take]
              congr 2
              omega
            rw [hcut, ← hlimit]
            refine .batch ?_ hrest
            rw [SortOutput.next, nextMerged, hpull, hlimit]
            dsimp only
            rw [if_neg hfull]

omit hkeys in
theorem openRuns_append (runs : List (List (List R))) (run : List (List R)) :
    openRuns (runs ++ [run]) = openRuns runs ++ [newFileRunCursor run runs.length] := by
  rw [openRuns, zipIdx_append, map_append, Nat.zero_add]
  rfl

theorem holds_remainder (h : Holds cfg s rows) :
    ∃ runs, openMerge cfg s = newRunMerger cfg (openRuns runs) ∧ RunsOf cfg runs rows := by
  have hle := isOrder_keysLe hkeys
  have hmerged := preMergeRuns_runsOf hkeys ⟨Reduces.refl _, h.sorted⟩
  unfold openMerge
  by_cases hnil : s.batches = []
  · refine ⟨preMergeRuns cfg s.runFiles, ?_, hmerged.reduces.trans hle ?_, hmerged.sorted⟩
    · dsimp only
      rw [if_pos hnil, append_nil]
    · have := h.reduces
      rwa [hnil, flatMap_nil, append_nil] at this
  · obtain ⟨hreduces, hsorted, -⟩ := sortBatches_spec hkeys s.batches
    refine ⟨preMergeRuns cfg s.runFiles ++ [chunks cfg.batchSize (sortBatches cfg s.batches)], ?_, ?_, ?_⟩
    · dsimp only
      rw [if_neg hnil, openRuns_append]
    · refine Reduces.trans hle ?_ h.reduces
      rw [map_append, flatten_append, map_singleton, flatten_singleton,
        flatten_chunks cfg.batchSize_pos]
      exact hmerged.reduces.append hreduces
    · intro run hrun
      obtain hrun | hrun := mem_append.mp hrun
      · exact hmerged.sorted run hrun
      · rw [mem_singleton.mp hrun, flatten_chunks cfg.batchSize_pos]
        exact hsorted

theorem streams_finalize (h : Holds cfg s rows) :
    ∃ out, Streams cfg (finalize cfg s) out ∧ Reduces (keysLe cfg.keys) cfg.limit out rows ∧
      out.Pairwise (fun a b => keysLe cfg.keys a b) ∧ ∀ k ∈ cfg.limit, out.length ≤ k := by
  have hle := isOrder_keysLe hkeys
  unfold finalize
  by_cases hfiles : s.runFiles = []
  · have hbatches := h.reduces
    rw [if_pos hfiles, finalizeColumnar]
    rw [hfiles, map_nil, flatten_nil] at hbatches
    have hstream := fun sorted => @streams_columnar R V cfg sorted 0
    by_cases hnil : s.batches = []
    · rw [hnil] at hbatches
      rw [if_pos hnil]
      exact ⟨[], hstream [], hbatches, .nil, fun k _ => Nat.zero_le k⟩
    · obtain ⟨hreduces, hsorted, hlength⟩ := sortBatches_spec hkeys s.batches
      rw [if_neg hnil]
      refine ⟨sortBatches cfg s.batches, ?_, hreduces.trans hle hbatches, hsorted, hlength⟩
      have := hstream (chunks cfg.batchSize (sortBatches cfg s.batches))
      rwa [drop_zero, flatten_chunks cfg.batchSize_pos] at this
  · rw [if_neg hfiles]
    obtain ⟨runs, hopen, hruns⟩ := holds_remainder hkeys h
    obtain ⟨out, hout, hstream⟩ := streams_merging hkeys 0 (heapOf_newRunMerger hkeys runs)
    have hstable := hout.stable hle fun run hrun => by
      obtain ⟨r, hr, rfl⟩ := mem_map.mp hrun
      exact hruns.sorted r hr
    obtain ⟨hreduces, hsorted⟩ := hstable.reduces hle cfg.limit
    rw [finalizeExternalMerge, hopen]
    refine ⟨_, hstream, hreduces.trans hle hruns.reduces, hsorted, fun k hk => ?_⟩
    rw [Option.mem_def.mp hk, cut, length_take]
    omega

omit hkeys

-- Sorting with spills: the stable sort without a limit, and with one its first rows up to ties.
theorem sort_stream (cfg : SortConfig R V) (hkeys : ∀ key ∈ cfg.keys, IsKernel key.kernel)
    (events : List (SortEvent R)) :
    ∃ out, Streams cfg (finalize cfg (runEvents cfg events)) out ∧
      match cfg.limit with
      | none => out = (arrivals events).mergeSort (keysLe cfg.keys)
      | some limit =>
        out.length = min limit (arrivals events).length ∧ out.Subperm (arrivals events) ∧
          List.Forall₂ (fun a b => ties (keysLe cfg.keys) a b) out
            (((arrivals events).mergeSort (keysLe cfg.keys)).take limit) := by
  have hle := isOrder_keysLe hkeys
  obtain ⟨out, hstream, hreduces, hsorted, hlength⟩ := streams_finalize hkeys (holds_runEvents hkeys events)
  refine ⟨out, hstream, ?_⟩
  cases hlimit : cfg.limit with
  | none =>
    rw [hlimit] at hreduces
    exact hle.stable_iff.mp ⟨hsorted, hreduces⟩
  | some limit =>
    rw [hlimit] at hreduces hlength
    exact Tops.first hle hreduces hsorted (hlength limit rfl)

def numberKey : SortKey Nat Nat :=
  ⟨fun n => ⟨n == 0, n⟩, fun a b => (a : Int) - b, .descending, true⟩

def numberConfig (limit : Option Nat) : SortConfig Nat Nat :=
  ⟨[numberKey], limit, 2, by decide, 2, by decide⟩

def numberEvents : List (SortEvent Nat) :=
  [.consume ⟨[1, 0, 3], none⟩ false, .spill, .consume ⟨[2, 9], some [0]⟩ false, .spill,
    .consume ⟨[0, 4], none⟩ false]

theorem sort_stream_numbers :
    ∃ out, Streams (numberConfig none) (finalize (numberConfig none)
        (runEvents (numberConfig none) numberEvents)) out ∧
      out = [1, 0, 3, 2, 0, 4].mergeSort (keysLe [numberKey]) := by
  have hkeys : ∀ key ∈ (numberConfig none).keys, IsKernel key.kernel := by
    intro key hkey
    rw [mem_singleton.mp hkey]
    exact ⟨fun a b => by simp only [numberKey]; omega, fun a b c => by simp only [numberKey]; omega⟩
  exact sort_stream (numberConfig none) hkeys numberEvents

end Wadjet.Engine.Exec.Sort
