import Wadjet.Data.Threads
import Wadjet.Storage.Catalog.ManifestCommit

namespace Wadjet.Storage.Catalog

open Wadjet.Data List Function

-- A change of one manifest that adds no path but those it declares.
structure Registration where
  table : String
  paths : List String
  change : PartitionManifest → Except CommitError PartitionManifest
  adds : ∀ manifest next, change manifest = .ok next →
    ∀ path ∈ next.paths, path ∈ manifest.paths ∨ path ∈ paths
  -- The swaps lost in a row can exhaust the attempts.
  exhausted : Bool

-- AddFiles, for objects an operator staged: an entry of the same path is
-- replaced.
def mergeFileEntries (existing incoming : List FileEntry) : List FileEntry :=
  incoming.foldl (fun out file =>
    if file.path ∈ out.map FileEntry.path then
      out.map fun entry => if entry.path = file.path then file else entry
    else out ++ [file]) existing

def replaceInPartition (partPath : String) (values : List (String × String))
    (files : List FileEntry) : List PartitionEntry → List PartitionEntry
  | [] => [⟨partPath, values, mergeFileEntries [] files⟩]
  | part :: rest =>
    if part.path = partPath then
      { part with files := mergeFileEntries part.files files } :: rest
    else part :: replaceInPartition partPath values files rest

variable {path : String}

theorem paths_mergeFileEntries {existing incoming : List FileEntry}
    (h : path ∈ (mergeFileEntries existing incoming).map FileEntry.path) :
    path ∈ existing.map FileEntry.path ∨ path ∈ incoming.map FileEntry.path := by
  unfold mergeFileEntries at h
  induction incoming generalizing existing with
  | nil => exact .inl h
  | cons file rest ih =>
    rw [foldl_cons] at h
    obtain hold | hnew := ih h
    · split_ifs at hold with hknown
      · obtain ⟨_, hentry, rfl⟩ := mem_map.mp hold
        obtain ⟨entry, hknown, rfl⟩ := mem_map.mp hentry
        split_ifs with hpath
        · exact .inr mem_cons_self
        · exact .inl (mem_map_of_mem hknown)
      · rw [map_append, mem_append] at hold
        obtain hold | hold := hold
        · exact .inl hold
        · exact .inr (by simp_all)
    · exact .inr (mem_cons_of_mem _ hnew)

theorem pathsOf_cons (part : PartitionEntry) (rest : List PartitionEntry) :
    pathsOf (part :: rest) = part.files.map FileEntry.path ++ pathsOf rest := by
  simp [pathsOf]

theorem paths_replaceInPartition {partPath : String} {values : List (String × String)}
    {files : List FileEntry} {partitions : List PartitionEntry}
    (h : path ∈ pathsOf (replaceInPartition partPath values files partitions)) :
    path ∈ pathsOf partitions ∨ path ∈ files.map FileEntry.path := by
  induction partitions with
  | nil =>
    rw [replaceInPartition, pathsOf_cons, mem_append] at h
    obtain h | h := h
    · exact (paths_mergeFileEntries h).imp_left nofun
    · cases h
  | cons part rest ih =>
    unfold replaceInPartition at h
    split_ifs at h <;> rw [pathsOf_cons, mem_append] at h <;> rw [pathsOf_cons, mem_append]
    · obtain h | h := h
      · exact (paths_mergeFileEntries h).imp_left .inl
      · exact .inl (.inr h)
    · obtain h | h := h
      · exact .inl (.inl h)
      · exact (ih h).imp_left .inr

def addFilesRegistration (table : String) (values : List (String × String)) (partPath : String)
    (files : List FileEntry) (exhausted : Bool) : Registration where
  table := table
  paths := files.map FileEntry.path
  change manifest := .ok { manifest with
    partitions := replaceInPartition partPath values files manifest.partitions }
  adds manifest next h path hpath := by
    obtain rfl := Except.ok.inj h
    exact paths_replaceInPartition hpath
  exhausted := exhausted

theorem Call.paths_of_mutate {call : Call} {manifest next : PartitionManifest}
    (h : call.mutate manifest = .ok next) (hpath : path ∈ next.paths) :
    path ∈ manifest.paths ∨ path ∈ call.newPaths := by
  have hfiles : ∀ {expected newFiles markers},
      commitFilesAndMarkers expected newFiles markers manifest = .ok next →
      path ∈ manifest.paths ∨ path ∈ newFiles.map (·.entry.path) := by
    intro expected newFiles markers h
    unfold commitFilesAndMarkers at h
    split_ifs at h
    · obtain rfl : manifest = next := Except.ok.inj h
      exact .inl hpath
    · obtain ⟨_, -, h⟩ := except_bind_ok h
      obtain ⟨_, -, h⟩ := except_bind_ok h
      obtain ⟨partitions, hpartitions, h⟩ := except_bind_ok h
      obtain rfl := Except.ok.inj h
      exact mem_append.mp ((addPending_perm hpartitions).mem_iff.mp hpath)
  cases call with
  | commitDML newFiles markers => exact hfiles h
  | commitIngest expected files => exact hfiles h
  | commitCompaction commit =>
    obtain ⟨part, hpart, -, -, rfl⟩ := commitCompaction_ok h
    obtain ⟨rest, hold, hnew⟩ := paths_of_updatePartition commit.inputs commit.output hpart
    refine (mem_append.mp (hnew.mem_iff.mp hpath)).imp_left fun hrest => ?_
    exact hold.mem_iff.mpr (mem_append_right _ hrest)
  | addNewFiles values partPath files expected =>
    obtain ⟨_, -, h⟩ := except_bind_ok h
    obtain ⟨partitions, hpartitions, h⟩ := except_bind_ok h
    obtain rfl := Except.ok.inj h
    have hperm := addToPartition_perm hpartitions
    rw [map_map] at hperm
    exact mem_append.mp (hperm.mem_iff.mp hpath)

def Call.registration (table : String) (call : Call) (exhausted : Bool) : Registration where
  table := table
  paths := call.newPaths
  change := call.mutate
  adds _ _ h _ hpath := Call.paths_of_mutate h hpath
  exhausted := exhausted

structure Sweep where
  requests : List String
  -- The object was written after the request, or its delete fails.
  spares : String → Bool

inductive Job where
  | register (registration : Registration)
  | retire (sweep : Sweep)

namespace Job

def registers : Job → List String
  | register registration => registration.paths
  | retire _ => []

end Job

-- The counted marks of the process, the manifests of the fixed tables, and
-- beside them what the theorems speak of: which calls hold marks, which were
-- in flight together, what each sweep marked and deleted.
structure Shared (Caller : Type) where
  registering : String → Nat
  retiring : String → Nat
  manifest : String → PartitionManifest
  inFlight : List Caller
  sweeping : List Caller
  met : List (Caller × Caller)
  marked : Caller → List String
  deleted : List (Caller × String)

inductive RetirePhase where
  | start
  | registered
  | committed
  | failing
  | refused
  | succeeded
  | reading (tables : List String) (live : List String)
  | deleting (paths : List String) (live : List String)
  | swept
  | done
deriving Repr, DecidableEq

def raise (count : String → Nat) (paths : List String) : String → Nat :=
  paths.foldl (fun count path => update count path (count path + 1)) count

-- A count of one or less is dropped from the map.
def lower (count : String → Nat) (paths : List String) : String → Nat :=
  paths.foldl (fun count path => update count path (count path - 1)) count

variable {Caller : Type} [DecidableEq Caller] (caller : Caller) (paths : List String)
  (shared : Shared Caller)

def beginRegistration : Option (Shared Caller) :=
  if paths.any (fun path => 0 < shared.retiring path) then none
  else some { shared with
    registering := raise shared.registering paths
    inFlight := caller :: shared.inFlight
    met := shared.sweeping.map (fun sweep => (caller, sweep)) ++ shared.met }

def endRegistration : Shared Caller :=
  { shared with
    registering := lower shared.registering paths
    inFlight := shared.inFlight.erase caller }

def markRetiring : Shared Caller :=
  let marked := paths.filter fun path => shared.registering path = 0
  { shared with
    retiring := raise shared.retiring marked
    sweeping := caller :: shared.sweeping
    met := shared.inFlight.map (fun registration => (registration, caller)) ++ shared.met
    marked := update shared.marked caller marked }

def unmarkRetiring : Shared Caller :=
  { shared with
    retiring := lower shared.retiring (shared.marked caller)
    sweeping := shared.sweeping.erase caller }

def advanceRegistration (registration : Registration) (shared : Shared Caller) :
    RetirePhase → Option (Shared Caller × RetirePhase)
  | .start =>
    match beginRegistration caller registration.paths shared with
    | none => some (shared, .refused)
    | some begun => some (begun, .registered)
  | .registered =>
    if registration.exhausted then some (shared, .failing)
    else
      match registration.change (shared.manifest registration.table) with
      | .error _ => some (shared, .failing)
      | .ok next =>
        some ({ shared with
          manifest := update shared.manifest registration.table next }, .committed)
  | .committed => some (endRegistration caller registration.paths shared, .succeeded)
  | .failing => some (endRegistration caller registration.paths shared, .refused)
  | _ => none

def retireObjects (tables : List String) (caller : Caller) (sweep : Sweep)
    (shared : Shared Caller) : RetirePhase → Option (Shared Caller × RetirePhase)
  | .start => some (markRetiring caller sweep.requests shared, .reading tables [])
  | .reading [] live => some (shared, .deleting (shared.marked caller) live)
  | .reading (table :: rest) live =>
    some (shared, .reading rest (live ++ (shared.manifest table).paths))
  | .deleting [] _ => some (shared, .swept)
  | .deleting (path :: rest) live =>
    if path ∈ live ∨ sweep.spares path then some (shared, .deleting rest live)
    else some ({ shared with deleted := (caller, path) :: shared.deleted }, .deleting rest live)
  | .swept => some (unmarkRetiring caller shared, .done)
  | _ => none

def advanceJob (tables : List String) (jobs : Caller → Job) (caller : Caller)
    (shared : Shared Caller) (phase : RetirePhase) : Option (Shared Caller × RetirePhase) :=
  match jobs caller with
  | .register registration => advanceRegistration caller registration shared phase
  | .retire sweep => retireObjects tables caller sweep shared phase

abbrev RetireState (Caller : Type) := Threads Caller (Shared Caller) RetirePhase

def retireStart (manifest : String → PartitionManifest) : RetireState Caller :=
  ⟨⟨fun _ => 0, fun _ => 0, manifest, [], [], [], fun _ => [], []⟩, fun _ => .start⟩

def AboutToDelete (jobs : Caller → Job) (state : RetireState Caller) (caller : Caller)
    (path : String) : Prop :=
  ∃ sweep rest live, jobs caller = .retire sweep ∧
    state.phase caller = .deleting (path :: rest) live ∧ path ∉ live ∧ sweep.spares path = false

end Wadjet.Storage.Catalog
