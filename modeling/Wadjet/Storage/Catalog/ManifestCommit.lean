import Wadjet.Data.CasLoop
import Wadjet.Storage.Catalog.Visible

namespace Wadjet.Storage.Catalog

open Wadjet.Data List

namespace PartitionManifest

def WellFormed (manifest : PartitionManifest) : Prop :=
  manifest.paths.Nodup

instance (manifest : PartitionManifest) : Decidable manifest.WellFormed :=
  inferInstanceAs (Decidable manifest.paths.Nodup)

def Mentions (manifest : PartitionManifest) (path : String) : Prop :=
  path ∈ manifest.paths ∨ path ∈ manifest.deleteMarkers.map DeleteMarker.filePath

end PartitionManifest

def pathsOf (partitions : List PartitionEntry) : List String :=
  (partitions.flatMap PartitionEntry.files).map FileEntry.path

theorem mergeNewFileEntries_ok {existing incoming merged : List FileEntry}
    (h : mergeNewFileEntries existing incoming = .ok merged) : merged = existing ++ incoming := by
  unfold mergeNewFileEntries at h
  induction incoming generalizing existing with
  | nil =>
    obtain rfl : existing = merged := Except.ok.inj h
    exact (append_nil existing).symm
  | cons file rest ih =>
    rw [foldlM_cons] at h
    obtain ⟨middle, hmiddle, hrest⟩ := except_bind_ok h
    split_ifs at hmiddle
    obtain rfl := Except.ok.inj hmiddle
    rw [ih hrest, append_assoc]
    rfl

variable {partitions out : List PartitionEntry} {values : List (String × String)}
  {files : List FileEntry} {partPath : String}

theorem addToPartition_perm
    (h : addToPartition partPath values files partitions = .ok out) :
    (pathsOf out).Perm (pathsOf partitions ++ files.map FileEntry.path) := by
  induction partitions generalizing out with
  | nil =>
    obtain ⟨merged, hmerged, hout⟩ := except_bind_ok h
    obtain rfl := Except.ok.inj hout
    simp [mergeNewFileEntries_ok hmerged, pathsOf]
  | cons part rest ih =>
    unfold addToPartition at h
    split_ifs at h with hpath
    · obtain ⟨merged, hmerged, hout⟩ := except_bind_ok h
      obtain rfl := Except.ok.inj hout
      simp only [mergeNewFileEntries_ok hmerged, pathsOf, flatMap_cons, map_append,
        append_assoc]
      exact perm_append_comm.append_left _
    · obtain ⟨others, hothers, hout⟩ := except_bind_ok h
      obtain rfl := Except.ok.inj hout
      have hperm := ih hothers
      simp only [pathsOf, flatMap_cons, map_append, append_assoc] at hperm ⊢
      exact hperm.append_left _

theorem addPending_perm {pending : List PendingFile} (h : pending.foldlM (fun partitions file =>
      addToPartition file.partPath file.partValues [file.entry.own] partitions) partitions =
        .ok out) : (pathsOf out).Perm (pathsOf partitions ++ pending.map (·.entry.path)) := by
  induction pending generalizing partitions with
  | nil =>
    obtain rfl : partitions = out := Except.ok.inj h
    simp
  | cons file rest ih =>
    obtain ⟨middle, hmiddle, hrest⟩ := except_bind_ok h
    refine (ih hrest).trans ?_
    have hperm := (addToPartition_perm hmiddle).append_right (rest.map (·.entry.path))
    simpa [FileEntry.own] using hperm

theorem checkMarkers_ok {manifest : PartitionManifest} {markers : List DeleteMarker}
    (h : checkMarkers manifest markers = .ok ()) :
    ∀ marker ∈ markers, marker.filePath ∈ manifest.paths ∧
      ∀ row ∈ marker.rowIndices,
        deletedRow manifest.deleteMarkers marker.filePath row = false := by
  induction markers with
  | nil => simp
  | cons marker rest ih =>
    unfold checkMarkers at h
    split_ifs at h with hlive
    split at h
    case h_1 => cases h
    case h_2 hnone =>
      rw [find?_eq_none] at hnone
      have hhead : ∀ row ∈ marker.rowIndices,
          deletedRow manifest.deleteMarkers marker.filePath row = false :=
        fun row hrow => Bool.eq_false_iff.mpr (hnone row hrow)
      exact forall_mem_cons.mpr ⟨⟨hlive, hhead⟩, ih h⟩

-- What a commit makes of the visible rows, and what it leaves to the next one.
structure Commits {Row : Type} [DecidableEq Row] (content : String → List Row)
    (manifest next : PartitionManifest) (removed added : Multiset Row) (newPaths : List String) : Prop where
  removes : removed ≤ visible content manifest
  visible_eq : visible content next = visible content manifest - removed + added
  wellFormed : next.WellFormed
  mentions : ∀ path, next.Mentions path → manifest.Mentions path ∨ path ∈ newPaths

variable {Row : Type} [DecidableEq Row] {content : String → List Row}
  {manifest next : PartitionManifest} {markers : List DeleteMarker}

-- A manifest that keeps some of its paths, marks none that it does not mention, and adds
-- new paths.
theorem Commits.of_kept {kept newPaths : List String} {removed : Multiset Row}
    (hpaths : next.paths.Perm (kept ++ newPaths)) (hkept : kept.Nodup) (hsub : kept ⊆ manifest.paths)
    (hnodup : newPaths.Nodup) (hfresh : ∀ path ∈ newPaths, ¬ manifest.Mentions path)
    (hmarks : ∀ path ∈ next.deleteMarkers.map DeleteMarker.filePath, manifest.Mentions path)
    (hrows : (kept.map (visibleRows content next.deleteMarkers)).sum + removed =
      visible content manifest) :
    Commits content manifest next removed (stored content newPaths) newPaths where
  removes := hrows ▸ Multiset.le_add_left _ _
  visible_eq := by
    rw [visible_of_perm hpaths, map_append, sum_append,
      sum_visibleRows_of_not_mem fun path hpath hmem => hfresh path hpath (hmarks path hmem),
      ← hrows, Multiset.add_sub_cancel_right]
  wellFormed := by
    refine hpaths.nodup_iff.mpr (hkept.append hnodup ?_)
    exact fun path hpath hnew => hfresh path hnew (.inl (hsub hpath))
  mentions := by
    rintro path (hpath | hpath)
    · exact (mem_append.mp (hpaths.mem_iff.mp hpath)).imp_left fun hpath => .inl (hsub hpath)
    · exact .inl (hmarks path hpath)

section

variable (hwell : manifest.WellFormed)

include hwell

-- Files and markers together: the markers hit only files already there, and
-- no row that is marked already.
theorem commits_of_perm {newPaths : List String}
    (hnodup : newPaths.Nodup) (hfresh : ∀ path ∈ newPaths, ¬ manifest.Mentions path)
    (hmarkers : ∀ marker ∈ markers, marker.filePath ∈ manifest.paths ∧
      ∀ row ∈ marker.rowIndices, deletedRow manifest.deleteMarkers marker.filePath row = false)
    (hpaths : next.paths.Perm (manifest.paths ++ newPaths))
    (hnext : next.deleteMarkers = mergeDeleteMarkers manifest.deleteMarkers markers) :
    Commits content manifest next (named content markers) (stored content newPaths) newPaths := by
  have hold : ((manifest.paths).map (visibleRows content next.deleteMarkers)).sum +
      named content markers = visible content manifest := by
    rw [← sum_markedRows hwell fun marker hmarker => (hmarkers marker hmarker).1,
      ← sum_map_add]
    congr 1
    refine map_congr_left fun path _ => ?_
    rw [hnext]
    refine visibleRows_merge fun row hrow => ?_
    obtain ⟨marker, hmarker, rfl, hmem⟩ := deletedRow_iff.mp hrow
    exact (hmarkers marker hmarker).2 row hmem
  refine .of_kept hpaths hwell (Subset.refl _) hnodup hfresh (fun path hpath => ?_) hold
  rw [hnext] at hpath
  obtain hpath | hpath := filePath_mem_merge hpath
  · exact .inr hpath
  · obtain ⟨marker, hmarker, rfl⟩ := mem_map.mp hpath
    exact .inl (hmarkers marker hmarker).1

theorem Commits.unchanged : Commits content manifest manifest 0 0 [] where
  removes := Multiset.zero_le _
  visible_eq := by simp
  wellFormed := hwell
  mentions _ h := .inl h

variable {expected : String}

theorem commitFilesAndMarkers_commits {newFiles : List PendingFile}
    (hnodup : (newFiles.map (·.entry.path)).Nodup)
    (hfresh : ∀ path ∈ newFiles.map (·.entry.path), ¬ manifest.Mentions path)
    (h : commitFilesAndMarkers expected newFiles markers manifest = .ok next) :
    Commits content manifest next (named content markers)
      (stored content (newFiles.map (·.entry.path))) (newFiles.map (·.entry.path)) := by
  unfold commitFilesAndMarkers at h
  split_ifs at h with hempty
  · obtain ⟨hfiles, hmarkers⟩ := hempty
    rw [List.isEmpty_iff] at hfiles hmarkers
    obtain rfl : manifest = next := Except.ok.inj h
    subst hfiles hmarkers
    exact Commits.unchanged hwell
  · obtain ⟨_, -, h⟩ := except_bind_ok h
    obtain ⟨_, hmarkers, h⟩ := except_bind_ok h
    obtain ⟨partitions, hpartitions, h⟩ := except_bind_ok h
    obtain rfl := Except.ok.inj h
    exact commits_of_perm hwell hnodup hfresh (checkMarkers_ok hmarkers)
      (addPending_perm hpartitions) rfl

theorem addFiles_commits (hnodup : (files.map FileEntry.path).Nodup)
    (hfresh : ∀ path ∈ files.map FileEntry.path, ¬ manifest.Mentions path)
    (h : addFiles values partPath files expected manifest = .ok next) :
    Commits content manifest next 0 (stored content (files.map FileEntry.path))
      (files.map FileEntry.path) := by
  obtain ⟨_, -, h⟩ := except_bind_ok h
  obtain ⟨partitions, hpartitions, h⟩ := except_bind_ok h
  obtain rfl := Except.ok.inj h
  have hperm := addToPartition_perm hpartitions
  rw [map_map] at hperm
  exact .of_kept hperm hwell (Subset.refl _) hnodup hfresh (fun _ hpath => .inr hpath) (add_zero _)

end

variable {path : String} {partitions : List PartitionEntry} {part : PartitionEntry}

theorem updatePartition_of_find (update : List FileEntry → List FileEntry)
    (h : partitions.find? (·.path = path) = some part) :
    ∃ before after, partitions = before ++ part :: after ∧
      updatePartition path update partitions =
        before ++ { part with files := update part.files } :: after := by
  induction partitions with
  | nil => cases h
  | cons head rest ih =>
    by_cases hpath : head.path = path
    · obtain rfl : head = part := by simpa [hpath] using h
      exact ⟨[], rest, rfl, by simp [updatePartition, hpath]⟩
    · obtain ⟨before, after, hrest, hupdate⟩ := ih (by simpa [hpath] using h)
      refine ⟨head :: before, after, by rw [hrest]; rfl, ?_⟩
      rw [updatePartition, if_neg hpath, hupdate]
      rfl

theorem paths_of_updatePartition (inputs : List String) (output : Option FileEntry)
    (h : partitions.find? (·.path = path) = some part) : ∃ rest,
      (pathsOf partitions).Perm
        ((part.files.filter (·.path ∈ inputs)).map FileEntry.path ++ rest) ∧
      (pathsOf (updatePartition path (fun files =>
        files.filter (·.path ∉ inputs) ++ (output.map FileEntry.own).toList) partitions)).Perm
        (rest ++ output.toList.map FileEntry.path) := by
  obtain ⟨before, after, hsplit, hupdate⟩ := updatePartition_of_find
    (fun files => files.filter (·.path ∉ inputs) ++ (output.map FileEntry.own).toList) h
  have hsort : (part.files.map FileEntry.path).Perm
      ((part.files.filter (·.path ∈ inputs)).map FileEntry.path ++
        (part.files.filter (·.path ∉ inputs)).map FileEntry.path) := by
    have hperm := (filter_append_perm (fun file => decide (file.path ∈ inputs)) part.files).symm
    simpa using hperm.map FileEntry.path
  have hout : (output.map FileEntry.own).toList.map FileEntry.path =
      output.toList.map FileEntry.path := by cases output <;> rfl
  refine ⟨(part.files.filter (·.path ∉ inputs)).map FileEntry.path ++
    (pathsOf before ++ pathsOf after), ?_, ?_⟩
  · rw [hsplit]
    simp only [pathsOf, flatMap_append, flatMap_cons, map_append]
    refine (perm_append_comm_assoc _ _ _).trans ?_
    rw [← append_assoc _ _ (_ ++ _)]
    exact hsort.append_right _
  · rw [hupdate]
    simp only [pathsOf, flatMap_append, flatMap_cons, map_append, hout,
      append_assoc]
    refine (perm_append_comm_assoc _ _ _).trans ?_
    exact (perm_append_comm.append_left _).append_left _

theorem deletedRow_filter {inputs : List String} (h : path ∉ inputs) (row : Int) :
    deletedRow (markers.filter (·.filePath ∉ inputs)) path row = deletedRow markers path row := by
  rw [Bool.eq_iff_iff, deletedRow_iff, deletedRow_iff]
  constructor
  · rintro ⟨marker, hmarker, hrest⟩
    exact ⟨marker, mem_of_mem_filter hmarker, hrest⟩
  · rintro ⟨marker, hmarker, rfl, hrow⟩
    exact ⟨marker, mem_filter.mpr ⟨hmarker, by simpa using h⟩, rfl, hrow⟩

theorem mem_deletedRows_iff {row : Int} :
    row ∈ deletedRows markers path ↔ deletedRow markers path row := by
  simp [deletedRows, deletedRow_iff, and_assoc]

def keptByMerge (content : String → List Row) (commit : CompactionCommit) (path : String) :
    Multiset Row :=
  keptRows content path fun row => !(commit.appliedDeletes path).contains row

def CompactionCommit.Faithful (content : String → List Row) (commit : CompactionCommit) : Prop :=
  stored content (commit.output.toList.map FileEntry.path) =
    (commit.inputs.dedup.map (keptByMerge content commit)).sum

variable {commit : CompactionCommit}

omit [DecidableEq Row] in
theorem visibleRows_of_sameRowSet
    (h : sameRowSet (deletedRows markers path) (commit.appliedDeletes path)) :
    visibleRows content markers path = keptByMerge content commit path := by
  refine keptRows_congr content fun row => congrArg (!·) ?_
  simp only [sameRowSet, Bool.and_eq_true, all_eq_true, contains_iff_mem] at h
  rw [Bool.eq_iff_iff, ← mem_deletedRows_iff, contains_iff_mem]
  exact ⟨h.1 row, h.2 row⟩

theorem commitCompaction_ok (h : commitCompaction commit manifest = .ok next) :
    ∃ part, manifest.partitions.find? (·.path = commit.partPath) = some part ∧
      (∀ path ∈ commit.inputs, path ∈ part.files.map FileEntry.path) ∧
      (∀ path ∈ commit.inputs, sameRowSet (deletedRows manifest.deleteMarkers path)
        (commit.appliedDeletes path)) ∧
      next = { manifest with
        partitions := updatePartition commit.partPath (fun files =>
          files.filter (·.path ∉ commit.inputs) ++ (commit.output.map FileEntry.own).toList)
          manifest.partitions
        deleteMarkers := manifest.deleteMarkers.filter (·.filePath ∉ commit.inputs) } := by
  unfold commitCompaction at h
  split_ifs at h
  · cases h
  split at h
  case h_1 => cases h
  case h_2 part hpart =>
    obtain ⟨_, hinputs, h⟩ := except_bind_ok h
    obtain ⟨_, hdeletes, h⟩ := except_bind_ok h
    obtain ⟨_, -, h⟩ := except_bind_ok h
    refine ⟨part, hpart, ?_, ?_, (Except.ok.inj h).symm⟩
    · unfold checkInputs at hinputs
      split at hinputs
      case h_1 => cases hinputs
      case h_2 hnone => simpa using hnone
    · unfold checkAppliedDeletes at hdeletes
      split at hdeletes
      case h_1 => cases hdeletes
      case h_2 hnone => simpa using hnone

-- The inputs leave with their markers; what the markers left of them is what
-- the output brings.
theorem commitCompaction_commits (hwell : manifest.WellFormed) (hfaithful : commit.Faithful content)
    (hfresh : ∀ path ∈ commit.output.toList.map FileEntry.path, ¬ manifest.Mentions path)
    (h : commitCompaction commit manifest = .ok next) :
    Commits content manifest next 0 0 (commit.output.toList.map FileEntry.path) := by
  obtain ⟨part, hpart, hinputs, hdeletes, hnext⟩ := commitCompaction_ok h
  obtain ⟨rest, hold, hnew⟩ := paths_of_updatePartition commit.inputs commit.output hpart
  replace hnew : next.paths.Perm (rest ++ commit.output.toList.map FileEntry.path) := by
    rw [hnext]
    exact hnew
  have hmarkers : next.deleteMarkers =
      manifest.deleteMarkers.filter (·.filePath ∉ commit.inputs) := by rw [hnext]
  set dropped := (part.files.filter (·.path ∈ commit.inputs)).map FileEntry.path with hdropped
  have hsplit : (dropped ++ rest).Nodup := hold.nodup_iff.mp hwell
  have hmem : ∀ path, path ∈ dropped ↔ path ∈ commit.inputs := by
    intro path
    constructor
    · intro hpath
      obtain ⟨file, hfile, rfl⟩ := mem_map.mp hpath
      simpa using (mem_filter.mp hfile).2
    · intro hpath
      obtain ⟨file, hfile, rfl⟩ := mem_map.mp (hinputs path hpath)
      exact mem_map_of_mem (mem_filter.mpr ⟨hfile, by simpa using hpath⟩)
  have hrest : ∀ path ∈ rest, path ∉ commit.inputs := fun path hpath hinput =>
    (nodup_append.mp hsplit).2.2 path ((hmem path).mpr hinput) path hpath rfl
  have hperm : dropped.Perm commit.inputs.dedup := by
    refine (perm_ext_iff_of_nodup (nodup_append.mp hsplit).1
      (nodup_dedup _)).mpr fun path => ?_
    rw [hmem, mem_dedup]
  have hkept : (dropped.map (visibleRows content manifest.deleteMarkers)).sum =
      stored content (commit.output.toList.map FileEntry.path) := by
    rw [hfaithful, (hperm.map _).sum_eq]
    congr 1
    refine map_congr_left fun path hpath => ?_
    exact visibleRows_of_sameRowSet (hdeletes path (mem_dedup.mp hpath))
  have hothers : ∀ path ∈ rest, visibleRows content next.deleteMarkers path =
      visibleRows content manifest.deleteMarkers path := fun path hpath =>
    keptRows_congr content fun row => by rw [hmarkers, deletedRow_filter (hrest path hpath)]
  have hsub : rest ⊆ manifest.paths := fun path hpath => hold.mem_iff.mpr (mem_append_right _ hpath)
  have hone : (commit.output.toList.map FileEntry.path).Nodup := by cases commit.output <;> simp
  have hmarks : ∀ path ∈ next.deleteMarkers.map DeleteMarker.filePath, manifest.Mentions path := by
    intro path hpath
    rw [hmarkers] at hpath
    obtain ⟨marker, hmarker, rfl⟩ := mem_map.mp hpath
    exact .inr (mem_map_of_mem (mem_of_mem_filter hmarker))
  have hrows : (rest.map (visibleRows content next.deleteMarkers)).sum +
      stored content (commit.output.toList.map FileEntry.path) = visible content manifest := by
    rw [visible_of_perm hold, map_append, sum_append, hkept, map_congr_left hothers, add_comm]
  have hcommits := Commits.of_kept hnew (nodup_append.mp hsplit).2.1 hsub hone hfresh hmarks hrows
  refine { hcommits with removes := Multiset.zero_le _, visible_eq := ?_ }
  rw [hcommits.visible_eq, tsub_add_cancel_of_le hcommits.removes, Multiset.sub_zero, add_zero]

namespace Call

variable (content)

def removed : Call → Multiset Row
  | commitDML _ markers => named content markers
  | _ => 0

def added : Call → Multiset Row
  | commitCompaction _ => 0
  | call => stored content call.newPaths

def apply (rows : Multiset Row) (call : Call) : Multiset Row :=
  rows - call.removed content + call.added content

def Faithful : Call → Prop
  | commitCompaction commit => commit.Faithful content
  | _ => True

variable {content} {call : Call}

theorem mutate_commits (hwell : manifest.WellFormed)
    (hfaithful : call.Faithful content) (hnodup : call.newPaths.Nodup)
    (hfresh : ∀ path ∈ call.newPaths, ¬ manifest.Mentions path)
    (h : call.mutate manifest = .ok next) :
    Commits content manifest next (call.removed content) (call.added content) call.newPaths := by
  cases call with
  | commitDML newFiles markers => exact commitFilesAndMarkers_commits hwell hnodup hfresh h
  | commitIngest expected files => exact commitFilesAndMarkers_commits hwell hnodup hfresh h
  | commitCompaction commit => exact commitCompaction_commits hwell hfaithful hfresh h
  | addNewFiles values partPath files expected => exact addFiles_commits hwell hnodup hfresh h

theorem mutate_of_asksNothing (h : call.asksNothing)
    (manifest : PartitionManifest) : call.mutate manifest = .ok manifest := by
  cases call with
  | commitDML newFiles markers =>
    rw [asksNothing, Bool.and_eq_true] at h
    simp only [mutate, commitFilesAndMarkers, h]
    rfl
  | commitIngest expected files =>
    rw [asksNothing] at h
    simp only [mutate, commitFilesAndMarkers, h]
    rfl
  | commitCompaction commit => cases h
  | addNewFiles values partPath files expected => cases h

end Call

end Wadjet.Storage.Catalog
