import Mathlib.Data.Finset.Basic

namespace Wadjet.Storage.Catalog

structure FileEntry where
  path : String
  engineWritten : Bool
deriving Repr, DecidableEq

structure PartitionEntry where
  path : String
  values : List (String × String)
  files : List FileEntry
deriving Repr, DecidableEq

structure DeleteMarker where
  filePath : String
  rowIndices : List Int
deriving Repr, DecidableEq

structure PartitionManifest where
  partitions : List PartitionEntry
  deleteMarkers : List DeleteMarker
  incarnation : String
deriving Repr, DecidableEq

structure PendingFile where
  partValues : List (String × String)
  partPath : String
  entry : FileEntry
deriving Repr, DecidableEq

inductive CommitError where
  | incarnationChanged (expected actual : String)
  | targetMoved (path : String)
  | rowSuperseded (row : Int) (path : String)
  | duplicatePath (path : String)
  | noInputs
  | inputMoved (path : String)
  | deletesAdvanced (path : String)
  | pathRetiring (path : String)
  | retriesExhausted
deriving Repr, DecidableEq

structure CompactionCommit where
  partPath : String
  inputs : List String
  -- No output when every input row was deleted.
  output : Option FileEntry
  -- The rows of each input that the merge skipped.
  appliedDeletes : String → List Int

namespace PartitionManifest

def files (manifest : PartitionManifest) : List FileEntry :=
  manifest.partitions.flatMap PartitionEntry.files

def paths (manifest : PartitionManifest) : List String :=
  manifest.files.map FileEntry.path

end PartitionManifest

def FileEntry.own (entry : FileEntry) : FileEntry :=
  { entry with engineWritten := true }

def deletedRow (markers : List DeleteMarker) (path : String) (row : Int) : Bool :=
  markers.any fun marker => marker.filePath == path && marker.rowIndices.contains row

def mergeNewFileEntries (existing incoming : List FileEntry) :
    Except CommitError (List FileEntry) :=
  incoming.foldlM (fun out file =>
    if file.path ∈ out.map FileEntry.path then .error (.duplicatePath file.path)
    else .ok (out ++ [file])) existing

def addToPartition (partPath : String) (values : List (String × String))
    (files : List FileEntry) : List PartitionEntry → Except CommitError (List PartitionEntry)
  | [] => do
      let merged ← mergeNewFileEntries [] files
      return [⟨partPath, values, merged⟩]
  | part :: rest =>
    if part.path = partPath then do
      let merged ← mergeNewFileEntries part.files files
      return { part with files := merged } :: rest
    else do
      let rest ← addToPartition partPath values files rest
      return part :: rest

def checkIncarnation (expected : String) (manifest : PartitionManifest) :
    Except CommitError Unit :=
  if expected ≠ "" ∧ manifest.incarnation ≠ expected then
    .error (.incarnationChanged expected manifest.incarnation)
  else .ok ()

def checkMarkers (manifest : PartitionManifest) : List DeleteMarker → Except CommitError Unit
  | [] => .ok ()
  | marker :: rest =>
    if marker.filePath ∉ manifest.paths then .error (.targetMoved marker.filePath)
    else
      match marker.rowIndices.find? (deletedRow manifest.deleteMarkers marker.filePath) with
      | some row => .error (.rowSuperseded row marker.filePath)
      | none => checkMarkers manifest rest

-- One marker for each path. The source walks a map here, in no fixed order.
def mergeDeleteMarkers (existing incoming : List DeleteMarker) : List DeleteMarker :=
  let markers := existing ++ incoming
  (markers.map DeleteMarker.filePath).dedup.map fun path =>
    ⟨path, ((markers.filter (·.filePath = path)).flatMap DeleteMarker.rowIndices).dedup⟩

def commitFilesAndMarkers (expectIncarnation : String) (newFiles : List PendingFile)
    (markers : List DeleteMarker) (manifest : PartitionManifest) :
    Except CommitError PartitionManifest := do
  if newFiles.isEmpty ∧ markers.isEmpty then
    return manifest
  checkIncarnation expectIncarnation manifest
  checkMarkers manifest markers
  let partitions ← newFiles.foldlM (fun partitions pending =>
    addToPartition pending.partPath pending.partValues [pending.entry.own] partitions)
    manifest.partitions
  return { manifest with
    partitions := partitions
    deleteMarkers := mergeDeleteMarkers manifest.deleteMarkers markers }

def addFiles (partValues : List (String × String)) (partPath : String) (files : List FileEntry)
    (expectIncarnation : String) (manifest : PartitionManifest) :
    Except CommitError PartitionManifest := do
  checkIncarnation expectIncarnation manifest
  let partitions ← addToPartition partPath partValues (files.map FileEntry.own)
    manifest.partitions
  return { manifest with partitions := partitions }

def sameRowSet (rows others : List Int) : Bool :=
  rows.all others.contains && others.all rows.contains

def deletedRows (markers : List DeleteMarker) (path : String) : List Int :=
  (markers.filter (·.filePath = path)).flatMap DeleteMarker.rowIndices

def updatePartition (path : String) (update : List FileEntry → List FileEntry) :
    List PartitionEntry → List PartitionEntry
  | [] => []
  | part :: rest =>
    if part.path = path then { part with files := update part.files } :: rest
    else part :: updatePartition path update rest

variable (commit : CompactionCommit)

def checkInputs (part : PartitionEntry) : Except CommitError Unit :=
  match commit.inputs.find? (· ∉ part.files.map FileEntry.path) with
  | some path => .error (.inputMoved path)
  | none => .ok ()

def checkAppliedDeletes (manifest : PartitionManifest) : Except CommitError Unit :=
  match commit.inputs.find? fun path =>
      !sameRowSet (deletedRows manifest.deleteMarkers path) (commit.appliedDeletes path) with
  | some path => .error (.deletesAdvanced path)
  | none => .ok ()

def checkOutput (part : PartitionEntry) : Except CommitError Unit :=
  match commit.output with
  | some output =>
    if output.path ∈ (part.files.filter (·.path ∉ commit.inputs)).map FileEntry.path then
      .error (.duplicatePath output.path)
    else .ok ()
  | none => .ok ()

def commitCompaction (manifest : PartitionManifest) : Except CommitError PartitionManifest := do
  if commit.inputs.isEmpty then
    throw .noInputs
  match manifest.partitions.find? (·.path = commit.partPath) with
  | none => throw (.inputMoved commit.partPath)
  | some part =>
    checkInputs commit part
    checkAppliedDeletes commit manifest
    checkOutput commit part
    return { manifest with
      partitions := updatePartition commit.partPath (fun files =>
        files.filter (·.path ∉ commit.inputs) ++ (commit.output.map FileEntry.own).toList)
        manifest.partitions
      deleteMarkers := manifest.deleteMarkers.filter (·.filePath ∉ commit.inputs) }

inductive Call where
  | commitDML (newFiles : List PendingFile) (markers : List DeleteMarker)
  | commitIngest (expectIncarnation : String) (files : List PendingFile)
  | commitCompaction (commit : CompactionCommit)
  | addNewFiles (partValues : List (String × String)) (partPath : String)
      (files : List FileEntry) (expectIncarnation : String)

def swapFileForGC (oldPath : String) (newFile : Option FileEntry) (partPath : String)
    (appliedIndices : List Int) : Call :=
  .commitCompaction
    { partPath, inputs := [oldPath], output := newFile
      appliedDeletes := fun path => if path = oldPath then appliedIndices else [] }

namespace Call

def mutate : Call → PartitionManifest → Except CommitError PartitionManifest
  | commitDML newFiles markers => commitFilesAndMarkers "" newFiles markers
  | commitIngest expected files => commitFilesAndMarkers expected files []
  | commitCompaction commit => Catalog.commitCompaction commit
  | addNewFiles values partPath files expected => addFiles values partPath files expected

-- The calls that return success before they read the manifest.
def asksNothing : Call → Bool
  | commitDML newFiles markers => newFiles.isEmpty && markers.isEmpty
  | commitIngest _ files => files.isEmpty
  | commitCompaction _ => false
  | addNewFiles _ _ _ _ => false

def newPaths : Call → List String
  | commitDML newFiles _ => newFiles.map (·.entry.path)
  | commitIngest _ files => files.map (·.entry.path)
  | commitCompaction commit => commit.output.toList.map FileEntry.path
  | addNewFiles _ _ files _ => files.map FileEntry.path

end Call

end Wadjet.Storage.Catalog
