import Wadjet.Data.SortedJoin
import Wadjet.Engine.Exec.Sort.Theorems

namespace Wadjet.Engine.Exec.SortMergeJoin

open Wadjet.Data Wadjet.Engine.Exec.Sort

structure JoinKey (L B V : Type) where
  left : L → Cell V
  right : B → Cell V
  kernel : V → V → Int

-- With a spill manager the bytes of pinned batches are reserved with its tracker.
structure Config (L B V : Type) where
  keys : List (JoinKey L B V)
  batchSize : Nat
  batchSize_pos : 0 < batchSize
  maxMergeFanIn : Nat
  two_le_fanIn : 2 ≤ maxMergeFanIn
  spill : Bool
  memBytes : List B → Nat

variable {L B R V : Type}

def Config.probe (cfg : Config L B V) : SortConfig L V where
  keys := cfg.keys.map fun k => ⟨k.left, k.kernel, .ascending, false⟩
  limit := none
  batchSize := cfg.batchSize
  batchSize_pos := cfg.batchSize_pos
  maxMergeFanIn := cfg.maxMergeFanIn
  two_le_fanIn := cfg.two_le_fanIn

def Config.build (cfg : Config L B V) : SortConfig B V where
  keys := cfg.keys.map fun k => ⟨k.right, k.kernel, .ascending, false⟩
  limit := none
  batchSize := cfg.batchSize
  batchSize_pos := cfg.batchSize_pos
  maxMergeFanIn := cfg.maxMergeFanIn
  two_le_fanIn := cfg.two_le_fanIn

section Side

variable (side : SortConfig R V)

def keysNonNull (r : R) : Bool :=
  side.keys.all fun k => !(k.column r).null

def rowOK (b : Batch R) (i : Nat) : Bool :=
  (b.rows[i]?).elim false (keysNonNull side)

def nonNullKeySel (b : Batch R) : Option (List Nat) :=
  if b.rows.all (keysNonNull side) then none
  else some ((b.sel.getD (List.range b.rows.length)).filter (rowOK side b))

variable (s : SortState R)

def consumeSide (b : Batch R) (heavy : Bool) : SortState R :=
  match nonNullKeySel side b with
  | none => Sort.consume side s b heavy
  | some [] => s
  | some sel => Sort.consume side s { b with sel := some sel } heavy

def applySide : SortEvent R → SortState R
  | .consume b heavy => consumeSide side s b heavy
  | .spill => flushSpill side s

-- A row cursor over the merged stream: the rows of the current batch from the cursor on,
-- the whole batch, and the heap of runs.
structure Stream (R : Type) where
  cur : List R
  whole : List R
  heap : List (RunCursor R)

def loadBatch (heap : List (RunCursor R)) : Stream R :=
  let next := pullRows side side.batchSize heap
  ⟨next.1, next.1, next.2⟩

def Stream.advance (s : Stream R) : Stream R :=
  match s.cur.tail with
  | [] => loadBatch side s.heap
  | x :: rest => { s with cur := x :: rest }

def openStream : Stream R :=
  loadBatch side (openMerge side s)

def Stream.left (s : Stream R) : Nat :=
  s.cur.length + (s.heap.map fun c => c.cur.length + c.later.flatten.length).sum

end Side

def compareCells : List ((V → V → Int) × Cell V × Cell V) → Int
  | [] => 0
  | c :: rest =>
    let cmp := sortCompare c.1 c.2.1 c.2.2
    if cmp ≠ 0 then cmp else compareCells rest

def cellsEqual (cells : List ((V → V → Int) × Cell V × Cell V)) : Bool :=
  cells.all fun c => sortCompare c.1 c.2.1 c.2.2 == 0

variable (cfg : Config L B V)

def compareLR (p : L) (b : B) : Int :=
  compareCells (cfg.keys.map fun k => (k.kernel, k.left p, k.right b))

def keysEqualLR (p : L) (b : B) : Bool :=
  cellsEqual (cfg.keys.map fun k => (k.kernel, k.left p, k.right b))

def keysEqualRR (b b' : B) : Bool :=
  cellsEqual (cfg.keys.map fun k => (k.kernel, k.right b, k.right b'))

-- The last two fields count the bytes reserved and released for groups so far.
structure State (L B : Type) where
  lstream : Stream L
  rstream : Stream B
  groupRefs : List B
  groupReserved : Nat
  groupActive : Bool
  groupPos : Nat
  pendingRelease : Nat
  pending : List (L × B)
  exhausted : Bool
  done : Bool
  reserved : Nat
  released : Nat

-- The bytes reserved when the build cursor moves off a batch that the group refers to.
def pinned (r r' : Stream B) : Nat :=
  if cfg.spill ∧ r.cur.tail = [] ∧ r'.cur ≠ [] then cfg.memBytes r.whole else 0

def collectRows (key : B) : Nat → Stream B → List B × Stream B × Nat
  | 0, r => ([], r, 0)
  | n + 1, r =>
    let r' := r.advance cfg.build
    match r'.cur with
    | [] => (r.cur.take 1, r', pinned cfg r r')
    | b :: _ =>
      if keysEqualRR cfg b key then
        let more := collectRows key n r'
        (r.cur.take 1 ++ more.1, more.2.1, pinned cfg r r' + more.2.2)
      else (r.cur.take 1, r', pinned cfg r r')

def collectGroup (key : B) (s : State L B) : State L B :=
  let group := collectRows cfg key s.rstream.left s.rstream
  { s with
    groupRefs := s.groupRefs ++ group.1
    rstream := group.2.1
    groupReserved := s.groupReserved + group.2.2
    reserved := s.reserved + group.2.2
    groupActive := true
    groupPos := 0 }

variable (s : State L B)

def retireGroup : State L B :=
  { s with
    pendingRelease := s.pendingRelease + s.groupReserved
    groupRefs := []
    groupReserved := 0
    groupActive := false
    groupPos := 0 }

def emitPairs (p : L) (s : State L B) : State L B :=
  let refs := (s.groupRefs.drop s.groupPos).take (cfg.batchSize - s.pending.length)
  let s' := { s with
    pending := s.pending ++ refs.map (Prod.mk p)
    groupPos := s.groupPos + refs.length }
  if s.groupPos + refs.length = s.groupRefs.length then
    { s' with groupPos := 0, lstream := s.lstream.advance cfg.probe }
  else s'

def stepGroup : State L B :=
  match s.lstream.cur, s.groupRefs with
  | p :: _, key :: _ => if keysEqualLR cfg p key then emitPairs cfg p s else retireGroup s
  | _, _ => retireGroup s

def advanceProbe : State L B :=
  { s with lstream := s.lstream.advance cfg.probe }

def advanceBuild : State L B :=
  { s with rstream := s.rstream.advance cfg.build }

def step : State L B :=
  if s.groupActive then stepGroup cfg s
  else
    match s.lstream.cur, s.rstream.cur with
    | p :: _, b :: _ =>
      if compareLR cfg p b < 0 then advanceProbe cfg s
      else if 0 < compareLR cfg p b then advanceBuild cfg s
      else collectGroup cfg b s
    | _, _ => { s with exhausted := true }

def Running : Prop :=
  s.exhausted = false ∧ s.pending.length < cfg.batchSize

inductive Loop : State L B → State L B → Prop where
  | stop {s : State L B} (h : ¬ Running cfg s) : Loop s s
  | go {s s' : State L B} (h : Running cfg s) (hrest : Loop (step cfg s) s') : Loop s s'

def flushPending : State L B :=
  { s with pending := [], released := s.released + s.pendingRelease, pendingRelease := 0 }

def teardown : State L B :=
  { s with
    groupRefs := []
    released := s.released + s.groupReserved + s.pendingRelease
    groupReserved := 0
    pendingRelease := 0
    pending := []
    groupActive := false
    done := true }

inductive Next : State L B → Option (List (L × B)) → State L B → Prop where
  | ended {s : State L B} (h : s.done) : Next s none s
  | batch {s s' : State L B} (h : s.done = false) (hloop : Loop cfg s s') (hpending : s'.pending ≠ []) :
      Next s (some s'.pending) (flushPending s')
  | finish {s s' : State L B} (h : s.done = false) (hloop : Loop cfg s s') (hpending : s'.pending = []) :
      Next s none (teardown s')

inductive Yields : State L B → List (L × B) → State L B → Prop where
  | stop {s s' : State L B} (h : Next cfg s none s') : Yields s [] s'
  | batch {s s' s'' : State L B} {b out : List (L × B)} (h : Next cfg s (some b) s')
      (hrest : Yields s' out s'') : Yields s (b ++ out) s''

def SortEvent.isBatch : SortEvent R → Bool
  | .consume _ _ => true
  | .spill => false

-- A side that saw no batch ends the join at once.
def finalize (probe : List (SortEvent L)) (build : List (SortEvent B)) : State L B :=
  let lstream := openStream cfg.probe (probe.foldl (applySide cfg.probe) .initial)
  let rstream := openStream cfg.build (build.foldl (applySide cfg.build) .initial)
  let s : State L B := ⟨lstream, rstream, [], 0, false, 0, 0, [], false, false, 0, 0⟩
  if probe.any SortEvent.isBatch && build.any SortEvent.isBatch then s else teardown s

def joins (p : L) (b : B) : Bool :=
  cfg.keys.all fun k => !(k.left p).null && !(k.right b).null && k.kernel (k.left p).data (k.right b).data == 0

end Wadjet.Engine.Exec.SortMergeJoin
