import Mathlib.Data.List.Dedup
import Mathlib.Data.List.Perm.Basic
import Wadjet.Data.Machine
import Wadjet.Physical.TableScan.Model

namespace Wadjet.Physical.ScanCache

open Wadjet.Data (Reachable runEvents)

variable {α : Type}

abbrev Row (α : Type) := List (String × α)

structure Batch (α : Type) where
  schema : List String
  rows : List (Row α)

-- Whether a scan of these columns reads a column; `none` reads all of them.
def wanted (cols : Option (List String)) (name : String) : Bool := cols.all (·.contains name)

-- A table by the live rows of the row groups of its files.
structure Table (α : Type) where
  schema : List String
  nodup : schema.Nodup
  files : List (List (List (Row α)))
  named : ∀ file ∈ files, ∀ group ∈ file, ∀ row ∈ group, row.map Prod.fst = schema

-- The row groups with the number of their file.
def Table.groups (table : Table α) : List (Nat × List (Row α)) :=
  table.files.zipIdx.flatMap fun (file, f) => file.map (f, ·)

-- A group without live rows gives no batch.
def Table.live (table : Table α) : List (Nat × List (Row α)) := table.groups.filter fun group => !group.2.isEmpty

-- Columns come in the table's order, whatever order they are asked in.
def Table.read (table : Table α) (cols : Option (List String)) (group : List (Row α)) : Batch α :=
  ⟨table.schema.filter (wanted cols), group.map fun row => row.filter fun cell => wanted cols cell.1⟩

-- A scan node of the plan. `keeps` says which row groups the bloom and range
-- filters of the joins above it leave in, `storage` what the operations on a
-- file come to when this scan reads it.
structure Scan (α : Type) where
  requiredColumns : List String
  restricted : Bool
  keeps : List (Row α) → Bool
  isLazy : Bool
  storage : Nat → TableScan.Storage

-- A file that cannot be loaded is passed over, as is one without a footer in the
-- row-group scan.
def Scan.reads (scan : Scan α) (group : Nat × List (Row α)) : Bool :=
  if scan.isLazy then (scan.storage group.1).wholeFile
  else scan.keeps group.2 && !(scan.storage group.1).footerFails && (scan.storage group.1).ensureLoaded

def Scan.columns (scan : Scan α) : Option (List String) :=
  if scan.requiredColumns.isEmpty then none else some scan.requiredColumns

def addColumns (merged cols : List String) : List String :=
  cols.foldl (fun merged col => if merged.contains col then merged else merged ++ [col]) merged

-- The columns of the cache entry of a table; no entry for one scan, nor where
-- a scan has predicates or a partition filter.
def mergeDuplicateScans (scans : List (Scan α)) : Option (Option (List String)) :=
  if scans.length < 2 then none
  else if scans.any Scan.restricted then none
  else if scans.any fun scan => scan.requiredColumns.isEmpty then some none
  else some (some (scans.foldl (fun merged scan => addColumns merged scan.requiredColumns) []))

-- A batch whose columns are already the consumer's, or lack one of them,
-- passes as it is.
def projectForConsumer (requiredCols : List String) (batch : Batch α) : Batch α :=
  let found := batch.schema.filter (requiredCols.contains ·)
  if requiredCols.isEmpty then batch
  else if batch.schema.length ≤ requiredCols.length then batch
  else if found.length < requiredCols.dedup.length then batch
  else ⟨found, batch.rows.map fun row => row.filter fun cell => requiredCols.contains cell.1⟩

-- The scans of one table that share an entry. Every scan asks for columns of
-- the table, none of them twice.
structure Plan (α : Type) where
  table : Table α
  scans : List (Scan α)
  unionCols : Option (List String)
  merged : mergeDuplicateScans scans = some unionCols
  required_subset : ∀ scan ∈ scans, scan.requiredColumns ⊆ table.schema
  required_nodup : ∀ scan ∈ scans, scan.requiredColumns.Nodup

abbrev Plan.Index (plan : Plan α) := Fin plan.scans.length

variable (plan : Plan α)

def Plan.scan (i : plan.Index) : Scan α := plan.scans.get i

-- A footer that panics is fatal, and footers that fail are when no row group is left.
def Plan.initFails (i : plan.Index) : Bool :=
  let failed := fun f => ((plan.scan i).storage f).footerFails
  !(plan.scan i).isLazy &&
    ((List.range plan.table.files.length).any (fun f => ((plan.scan i).storage f).footer = .panics) ||
      ((List.range plan.table.files.length).any failed &&
        !plan.table.groups.any fun group => (plan.scan i).keeps group.2 && !failed group.1))

-- What the storage scan returns before it ends without an error.
def Plan.source (i : plan.Index) : List (Batch α) :=
  (plan.table.live.filter (plan.scan i).reads).map fun group => plan.table.read plan.unionCols group.2

def Plan.project (i : plan.Index) : Batch α → Batch α :=
  projectForConsumer (plan.scan i).requiredColumns

inductive Ready where
  | unclaimed
  | opened
  | closed
  deriving DecidableEq

-- `closes` counts how often the channel was closed.
structure Cache (α : Type) where
  batches : List (Batch α)
  done : Bool
  abandoned : Bool
  ready : Ready
  closes : Nat

inductive Phase where
  | idle
  | waiting
  | claiming
  | scanning
  | replaying
  | stopped
  deriving DecidableEq

-- One `catalogScanSource`. `inner` is what its storage scan has still to
-- return; `ended` and `failed` say that some worker got the end of the stream,
-- or an error.
structure Consumer (α : Type) where
  phase : Phase
  claimed : Bool
  inner : List (Batch α)
  replayIdx : Nat
  received : List (Batch α)
  ended : Bool
  failed : Bool
  closed : Bool

structure State (plan : Plan α) where
  cache : Cache α
  consumers : plan.Index → Consumer α

def Cache.empty : Cache α := ⟨[], false, false, .unclaimed, 0⟩

def Consumer.idle : Consumer α := ⟨.idle, false, [], 0, [], false, false, false⟩

def State.initial : State plan := ⟨Cache.empty, fun _ => Consumer.idle⟩

inductive Pull where
  | batch (k : Nat)
  | fail
  | eos

-- Each event is one stretch of code that runs under the cache's lock.
inductive Event (n : Nat) where
  | init (i : Fin n)
  | innerInit (i : Fin n) (ok : Bool)
  | wake (i : Fin n)
  | cancel (i : Fin n)
  | next (i : Fin n) (pull : Pull)
  | close (i : Fin n)

variable (cache : Cache α)

def Cache.closeReady : Cache α :=
  if cache.ready = .unclaimed then cache
  else { cache with ready := .closed, closes := cache.closes + 1 }

def Cache.abandon : Cache α :=
  if cache.done || cache.abandoned then cache
  else { cache with abandoned := true }.closeReady

def Cache.finish : Cache α := { cache with done := true }.closeReady

namespace State

variable {plan : Plan α} (state : State plan) (i : plan.Index)

def set (cache : Cache α) (consumer : Consumer α) : State plan :=
  ⟨cache, Function.update state.consumers i consumer⟩

-- A `Close` that came before has nothing to release.
def init : Option (State plan) :=
  let consumer := state.consumers i
  let cache := state.cache
  if consumer.phase ≠ .idle then none
  else if cache.done then some (state.set i cache { consumer with phase := .replaying, replayIdx := 0 })
  else match cache.ready with
    | .unclaimed =>
      some (state.set i { cache with ready := .opened }
        { consumer with phase := .claiming, claimed := true, closed := false })
    | .opened | .closed => some (state.set i cache { consumer with phase := .waiting })

def innerInit (ok : Bool) : Option (State plan) :=
  let consumer := state.consumers i
  if consumer.phase ≠ .claiming then none
  else if ok && !plan.initFails i then
    some (state.set i state.cache { consumer with phase := .scanning, inner := plan.source i })
  else some (state.set i state.cache.abandon { consumer with phase := .stopped, failed := true })

def wake : Option (State plan) :=
  let consumer := state.consumers i
  if consumer.phase ≠ .waiting || state.cache.ready ≠ .closed then none
  else if state.cache.done then
    some (state.set i state.cache { consumer with phase := .replaying, replayIdx := 0 })
  else some (state.set i state.cache { consumer with phase := .stopped, failed := true })

def cancel : Option (State plan) :=
  let consumer := state.consumers i
  if consumer.phase ≠ .waiting then none
  else some (state.set i state.cache { consumer with phase := .stopped, failed := true })

def nextReplay : State plan :=
  let consumer := state.consumers i
  match state.cache.batches[consumer.replayIdx]? with
  | none => state.set i state.cache { consumer with replayIdx := consumer.replayIdx + 1, ended := true }
  | some batch =>
    state.set i state.cache { consumer with
      replayIdx := consumer.replayIdx + 1
      received := consumer.received ++ [plan.project i batch] }

-- A storage scan that was closed may end before it has returned everything.
def nextScan (pull : Pull) : Option (State plan) :=
  let consumer := state.consumers i
  let cache := state.cache
  if cache.done then some (state.set i cache { consumer with ended := true })
  else match pull with
    | .fail => some (state.set i cache.abandon { consumer with failed := true })
    | .batch k =>
      (consumer.inner[k]?).map fun batch =>
        state.set i { cache with batches := cache.batches ++ [batch] }
          { consumer with
            inner := consumer.inner.eraseIdx k
            received := consumer.received ++ [plan.project i batch] }
    | .eos =>
      if !consumer.inner.isEmpty && !consumer.closed then none
      else if cache.abandoned then some (state.set i cache { consumer with failed := true })
      else some (state.set i cache.finish { consumer with ended := true })

def next (pull : Pull) : Option (State plan) :=
  match (state.consumers i).phase with
  | .replaying => some (state.nextReplay i)
  | .scanning => state.nextScan i pull
  | .idle | .waiting | .claiming | .stopped => none

def close : State plan :=
  let consumer := state.consumers i
  let cache := if consumer.claimed then state.cache.abandon else state.cache
  state.set i cache { consumer with closed := true }

def step : Event plan.scans.length → Option (State plan)
  | .init i => state.init i
  | .innerInit i ok => state.innerInit i ok
  | .wake i => state.wake i
  | .cancel i => state.cancel i
  | .next i pull => state.next i pull
  | .close i => some (state.close i)

end State

def Plan.Reachable (plan : Plan α) : State plan → Prop :=
  Data.Reachable (· = State.initial plan) State.step

end Wadjet.Physical.ScanCache
