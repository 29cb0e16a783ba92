import Wadjet.Data.WorkPool

namespace Wadjet.Physical.TableScan

open Wadjet.Data (Outcome WorkPool)

abbrev RowId := Nat × Nat

-- A row group with what each prune decides about it, the rows the pushed
-- conjuncts select, and which reads of it fail.
structure RowGroup where
  numRows : Nat
  statsPruned : Bool
  joinPruned : Bool
  dictPruned : Bool
  selects : Nat → Bool
  filterFails : Bool
  pageFails : Bool

-- Where a file's row-group metadata comes from: the catalog or the footer
-- cache, a footer that is read, or one that cannot be.
inductive Footer where
  | covered
  | readable
  | fails
  | panics
  deriving DecidableEq

-- The outcome of every storage operation on a file. `staged` and `slabs` are the
-- two loads tried before the whole-file read.
structure Storage where
  footer : Footer
  staged : Bool
  slabs : Bool
  opens : Bool
  reads : Bool
  decodes : Bool

structure File extends Storage where
  groups : List RowGroup
  deleted : Nat → Bool

structure Scan where
  files : List File
  rowLimit : Nat
  hasNestedTypes : Bool
  rowPreds : Bool
  countOnlyScan : Bool
  workers : Nat
  workers_pos : 0 < workers
  capacity : Nat
  capacity_pos : 0 < capacity

namespace Storage

def wholeFile (file : Storage) : Bool := file.opens && file.reads && file.decodes

def ensureLoaded (file : Storage) : Bool := file.staged || file.slabs || file.wholeFile

def footerFails (file : Storage) : Bool := file.footer = .fails || file.footer = .panics

end Storage

namespace Scan

-- The file-level scan of a LIMIT and of nested columns.
def isLazy (scan : Scan) : Bool := 0 < scan.rowLimit || scan.hasNestedTypes

def selected (scan : Scan) (group : RowGroup) (i : Nat) : Bool := !scan.rowPreds || group.selects i

section RowGroups

variable (scan : Scan) (f : Nat) (file : File)

-- The rows of a group that starts at `offset`: those the pushed conjuncts
-- select, without those a delete marker names.
def groupRows (offset : Nat) (group : RowGroup) : List RowId :=
  ((List.range group.numRows).filter fun i =>
    scan.selected group i && !file.deleted (offset + i)).map fun i => (f, offset + i)

-- A file that cannot be loaded gives no batch for any of its row groups.
def readRG (offset : Nat) (group : RowGroup) : Outcome RowId :=
  if !file.ensureLoaded then .items []
  else if group.dictPruned then .items []
  else if scan.rowPreds && group.filterFails then .error
  else if scan.rowPreds && (List.range group.numRows).all (fun i => !group.selects i) then .items []
  else if !(scan.rowPreds && scan.countOnlyScan) && group.pageFails then .error
  else .items (scan.groupRows f file offset group)

def fileUnits : Nat → List RowGroup → List (Outcome RowId)
  | _, [] => []
  | offset, group :: rest =>
    (if group.statsPruned || group.joinPruned then [] else [scan.readRG f file offset group]) ++
      fileUnits (offset + group.numRows) rest

end RowGroups

-- A file whose footer cannot be read has no slot and no units.
def buildRGUnits (scan : Scan) : List (Outcome RowId) :=
  scan.files.zipIdx.flatMap fun (file, f) =>
    if file.footerFails then [] else scan.fileUnits f file 0 file.groups

section Files

variable (scan : Scan) (f : Nat) (file : File)

def lazySkips (group : RowGroup) : Bool := !scan.hasNestedTypes && group.statsPruned

def activeRows : Nat → List RowGroup → List RowId
  | _, [] => []
  | offset, group :: rest =>
    (if scan.lazySkips group then []
      else (List.range group.numRows).map fun i => (f, offset + i)) ++
      activeRows (offset + group.numRows) rest

-- Markers are looked up by the place in the merged batch.
def readFile : Outcome RowId :=
  if !file.wholeFile then .items []
  else if file.groups.any fun group => !scan.lazySkips group && group.pageFails then .error
  else .items
    (((scan.activeRows f 0 file.groups).zipIdx.filter fun (_, j) => !file.deleted j).map Prod.fst)

end Files

def lazyUnits (scan : Scan) : List (Outcome RowId) :=
  scan.files.zipIdx.map fun (file, f) => scan.readFile f file

-- Pushed conjuncts need the row-group scan; a footer that panics is fatal, and
-- footers that fail are when nothing else is left to read.
def initFails (scan : Scan) : Bool :=
  if scan.isLazy then scan.rowPreds
  else scan.files.any (·.footer = .panics) ||
    (scan.files.any (·.footerFails) && scan.buildRGUnits.isEmpty)

def pool (scan : Scan) : WorkPool RowId where
  units := if scan.isLazy then scan.lazyUnits else scan.buildRGUnits
  stopsOnError := scan.isLazy
  workers := scan.workers
  workers_pos := scan.workers_pos
  capacity := scan.capacity
  capacity_pos := scan.capacity_pos

end Scan

end Wadjet.Physical.TableScan
