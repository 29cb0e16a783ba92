import Mathlib.Algebra.Ring.Nat
import Wadjet.Data.HeapMerge
import Wadjet.Engine.Exec.Sort.Keys

namespace Wadjet.Engine.Exec.Sort

open Wadjet.Data List

variable {R V : Type}

def chunks (size : Nat) (l : List R) : List (List R) :=
  if size = 0 ∨ l = [] then [] else l.take size :: chunks size (l.drop size)
termination_by l.length
decreasing_by
  rename_i h
  have := length_pos_iff.mpr (not_or.mp h).2
  rw [length_drop]
  omega

section Select

variable (less : R → R → Bool)

def sliceStable (entries : List R) : List R :=
  entries.mergeSort fun a b => !less b a

-- The root of the bounded heap is the worst entry in it.
def offer (h : List R) (e : R) : List R :=
  match h with
  | [] => []
  | root :: _ => if less e root then Heap.fixRoot (fun a b => less b a) h e else h

def topNHeap (k : Nat) (entries : List R) : List R :=
  (entries.drop k).foldl (offer less) (Heap.init (fun a b => less b a) (entries.take k))

def selectSortedEntries (limit : Option Nat) (entries : List R) : List R :=
  match limit with
  | none => sliceStable less entries
  | some 0 => []
  | some k =>
    if k < entries.length / 2 then sliceStable less (topNHeap less k entries)
    else (sliceStable less entries).take k

end Select

structure SortConfig (R V : Type) where
  keys : List (SortKey R V)
  limit : Option Nat
  batchSize : Nat
  batchSize_pos : 0 < batchSize
  maxMergeFanIn : Nat
  two_le_fanIn : 2 ≤ maxMergeFanIn

variable (cfg : SortConfig R V)

def sortBatches (batches : List (Batch R)) : List R :=
  selectSortedEntries (sortEntriesLess (resolveSortKeysForBatches cfg.keys batches)) cfg.limit
    (batches.flatMap Batch.active)

structure SortState (R : Type) where
  batches : List (Batch R)
  runFiles : List (List (List R))

def SortState.initial : SortState R :=
  ⟨[], []⟩

def writeSortedRun (entries : List R) : List (List (List R)) :=
  if entries = [] then [] else [chunks cfg.batchSize entries]

variable (s : SortState R)

def flushSpill : SortState R :=
  if s.batches = [] then s
  else { batches := [], runFiles := s.runFiles ++ writeSortedRun cfg (sortBatches cfg s.batches) }

def compactTopK : SortState R :=
  { s with batches := [⟨sortBatches cfg s.batches, none⟩] }

-- Compaction also runs when the buffered bytes are many, which is given.
def consume (b : Batch R) (heavy : Bool) : SortState R :=
  let s := { s with batches := s.batches ++ [b] }
  match cfg.limit with
  | none => s
  | some limit =>
    if limit * 2 + 4 * cfg.batchSize < (s.batches.flatMap Batch.active).length ∨ heavy ∨
        4 ≤ s.batches.length then compactTopK cfg s
    else s

inductive SortEvent (R : Type) where
  | consume (b : Batch R) (heavy : Bool)
  | spill

def SortState.apply : SortEvent R → SortState R
  | .consume b heavy => consume cfg s b heavy
  | .spill => flushSpill cfg s

def runEvents (events : List (SortEvent R)) : SortState R :=
  events.foldl (SortState.apply cfg) .initial

-- One batch of a run at a time; no batch of a run is empty.
structure RunCursor (R : Type) where
  cur : List R
  later : List (List R)
  ord : Nat
  later_ne : ∀ b ∈ later, b ≠ []
  exhausted : cur = [] → later = []

def RunCursor.load (run : List (List R)) (ord : Nat) (h : ∀ b ∈ run, b ≠ []) : RunCursor R :=
  match run, h with
  | [], _ => ⟨[], [], ord, nofun, fun _ => rfl⟩
  | b :: rest, h => ⟨b, rest, ord, fun c hc => h c (mem_cons_of_mem b hc),
      fun hb => absurd hb (h b mem_cons_self)⟩

def RunCursor.advance (c : RunCursor R) : RunCursor R :=
  match c.cur.tail with
  | [] => .load c.later c.ord c.later_ne
  | x :: rest => ⟨x :: rest, c.later, c.ord, c.later_ne, nofun⟩

-- Runs that are read back without the empty batches that no writer makes.
def newFileRunCursor (run : List (List R)) (ord : Nat) : RunCursor R :=
  .load (run.filter (· ≠ [])) ord fun b hb => by simpa using (mem_filter.mp hb).2

-- The merge always takes the kernels that know NULL.
def mergeLess : R → R → Bool :=
  sortEntriesLess (cfg.keys.map fun key => resolveSortKey key false)

def mergeStep (h : List (RunCursor R)) (c : RunCursor R) : List (RunCursor R) :=
  stepHeap (fun a b => !mergeLess cfg b a) RunCursor.cur RunCursor.ord h c

def newRunMerger (cursors : List (RunCursor R)) : List (RunCursor R) :=
  Heap.init (cursorLess (fun a b => !mergeLess cfg b a) RunCursor.cur RunCursor.ord)
    (cursors.filter (·.cur ≠ []))

def pullRows : Nat → List (RunCursor R) → List R × List (RunCursor R)
  | 0, h => ([], h)
  | _ + 1, [] => ([], [])
  | n + 1, c :: rest =>
    let next := pullRows n (mergeStep cfg (c :: rest) c.advance)
    (c.cur.take 1 ++ next.1, next.2)

def openRuns (runs : List (List (List R))) : List (RunCursor R) :=
  runs.zipIdx.map fun r => newFileRunCursor r.1 r.2

def mergeToBatches : Nat → List (RunCursor R) → Nat → List (List R)
  | 0, _, _ => []
  | fuel + 1, h, written =>
    match pullRows cfg cfg.batchSize h with
    | ([], _) => []
    | (b, h') =>
      match cfg.limit with
      | none => b :: mergeToBatches fuel h' (written + b.length)
      | some limit =>
        let b := if limit < written + b.length then b.take (limit - written) else b
        if limit ≤ written + b.length then [b]
        else b :: mergeToBatches fuel h' (written + b.length)

def mergeRunsToFile (runs : List (List (List R))) : List (List (List R)) :=
  if cfg.limit = some 0 then []
  else [mergeToBatches cfg ((runs.map fun r => r.flatten.length).sum + 1)
    (newRunMerger cfg (openRuns runs)) 0]

def mergeGroup (group : List (List (List R))) : List (List (List R)) :=
  if group.length = 1 then group else mergeRunsToFile cfg group

theorem length_mergeGroup (group : List (List (List R))) : (mergeGroup cfg group).length ≤ 1 := by
  unfold mergeGroup mergeRunsToFile
  split
  · omega
  · split
    · exact Nat.zero_le 1
    · exact Nat.le_refl 1

theorem length_chunks {size : Nat} (hsize : 2 ≤ size) (l : List R) :
    (chunks size l).length * 2 ≤ l.length + 1 := by
  induction l using chunks.induct size with
  | case1 l h =>
    rw [chunks, if_pos h]
    exact Nat.zero_le _
  | case2 l h ih =>
    have hpos := length_pos_iff.mpr (not_or.mp h).2
    rw [length_drop] at ih
    rw [chunks, if_neg h, length_cons]
    by_cases hle : size ≤ l.length
    · omega
    · have hnil : l.drop size = [] := drop_eq_nil_of_le (by omega)
      rw [hnil, chunks, if_pos (.inr rfl)] at ih ⊢
      omega

theorem length_mergeGroups (groups : List (List (List (List R)))) :
    (groups.flatMap (mergeGroup cfg)).length ≤ groups.length := by
  induction groups with
  | nil => exact Nat.le_refl 0
  | cons group rest ih =>
    have := length_mergeGroup cfg group
    rw [flatMap_cons, length_append, length_cons]
    omega

def preMergeRuns (runs : List (List (List R))) : List (List (List R)) :=
  if cfg.maxMergeFanIn - 1 < runs.length then
    preMergeRuns ((chunks cfg.maxMergeFanIn runs).flatMap (mergeGroup cfg))
  else runs
termination_by runs.length
decreasing_by
  have hfan := cfg.two_le_fanIn
  have hchunks := length_chunks hfan runs
  have hgroups := length_mergeGroups cfg (chunks cfg.maxMergeFanIn runs)
  omega

-- What Next reads from: materialized batches, or the merge with the rows emitted so far.
inductive SortOutput (R : Type) where
  | columnar (sorted : List (List R)) (pos : Nat)
  | merging (heap : List (RunCursor R)) (emitted : Nat)
  | mergeDone

def finalizeColumnar : SortOutput R :=
  .columnar (if s.batches = [] then [] else chunks cfg.batchSize (sortBatches cfg s.batches)) 0

def openMerge : List (RunCursor R) :=
  let runs := preMergeRuns cfg s.runFiles
  let remainder :=
    if s.batches = [] then []
    else [newFileRunCursor (chunks cfg.batchSize (sortBatches cfg s.batches)) runs.length]
  newRunMerger cfg (openRuns runs ++ remainder)

def finalizeExternalMerge : SortOutput R :=
  .merging (openMerge cfg s) 0

def finalize : SortOutput R :=
  if s.runFiles = [] then finalizeColumnar cfg s else finalizeExternalMerge cfg s

def nextMerged (h : List (RunCursor R)) (emitted : Nat) : Option (List R) × SortOutput R :=
  match pullRows cfg cfg.batchSize h with
  | ([], _) => (none, .mergeDone)
  | (b, h') =>
    match cfg.limit with
    | none => (some b, .merging h' (emitted + b.length))
    | some limit =>
      if limit ≤ emitted then (none, .mergeDone)
      else
        let b := b.take (limit - emitted)
        (some b, .merging h' (emitted + b.length))

def SortOutput.next : SortOutput R → Option (List R) × SortOutput R
  | .columnar sorted pos =>
    match sorted[pos]? with
    | none => (none, .columnar sorted pos)
    | some b => (some b, .columnar sorted (pos + 1))
  | .merging h emitted => nextMerged cfg h emitted
  | .mergeDone => (none, .mergeDone)

inductive Streams : SortOutput R → List R → Prop where
  | stop {o o' : SortOutput R} (h : o.next cfg = (none, o')) : Streams o []
  | batch {o o' : SortOutput R} {b out : List R} (h : o.next cfg = (some b, o'))
      (hrest : Streams o' out) : Streams o (b ++ out)

def arrivals : List (SortEvent R) → List R
  | [] => []
  | .consume b _ :: rest => b.active ++ arrivals rest
  | .spill :: rest => arrivals rest

end Wadjet.Engine.Exec.Sort
