import Mathlib.Algebra.BigOperators.Group.Finset.Basic
import Wadjet.Data.Results
import Wadjet.Storage.Catalog.Manifest

namespace Wadjet.Storage.Catalog

open List

variable {Row : Type} (content : String → List Row)

def keptRows (path : String) (keep : Int → Bool) : Multiset Row :=
  (Multiset.filter (fun entry : Row × Nat => keep entry.2)
    ((content path).zipIdx : Multiset (Row × Nat))).map Prod.fst

variable (markers : List DeleteMarker) (path : String)

def visibleRows : Multiset Row :=
  keptRows content path fun row => !deletedRow markers path row

def markedRows : Multiset Row :=
  keptRows content path (deletedRow markers path)

def visible (manifest : PartitionManifest) : Multiset Row :=
  (manifest.paths.map (visibleRows content manifest.deleteMarkers)).sum

def named : Multiset Row :=
  ((markers.map DeleteMarker.filePath).dedup.map (markedRows content markers)).sum

def stored (paths : List String) : Multiset Row :=
  (paths.map fun path => (content path : Multiset Row)).sum

theorem keptRows_true : keptRows content path (fun _ => true) = content path := by
  simp [keptRows]

theorem keptRows_false : keptRows content path (fun _ => false) = 0 := by
  simp [keptRows]

variable {path : String}

theorem keptRows_congr {keep other : Int → Bool}
    (h : ∀ row, keep row = other row) : keptRows content path keep = keptRows content path other := by
  rw [show keep = other from funext h]

theorem keptRows_add {keep other : Int → Bool}
    (h : ∀ row, ¬ (keep row ∧ other row)) :
    keptRows content path keep + keptRows content path other =
      keptRows content path fun row => keep row || other row := by
  unfold keptRows
  rw [← Multiset.map_add, Multiset.filter_add_filter]
  simp [h]

variable {content} {markers : List DeleteMarker}

theorem deletedRow_iff {row : Int} :
    deletedRow markers path row ↔
      ∃ marker ∈ markers, marker.filePath = path ∧ row ∈ marker.rowIndices := by
  simp [deletedRow]

theorem deletedRow_eq_false_of_not_mem
    (h : path ∉ markers.map DeleteMarker.filePath) (row : Int) :
    deletedRow markers path row = false := by
  rw [Bool.eq_false_iff, Ne, deletedRow_iff]
  rintro ⟨marker, hmarker, rfl, -⟩
  exact h (mem_map_of_mem hmarker)

theorem deletedRow_merge (existing incoming : List DeleteMarker) (path : String) (row : Int) :
    deletedRow (mergeDeleteMarkers existing incoming) path row =
      (deletedRow existing path row || deletedRow incoming path row) := by
  rw [Bool.eq_iff_iff, Bool.or_eq_true, deletedRow_iff, deletedRow_iff, deletedRow_iff]
  constructor
  · rintro ⟨marker, hmarker, rfl, hrow⟩
    simp only [mergeDeleteMarkers, mem_map] at hmarker
    obtain ⟨path, -, rfl⟩ := hmarker
    simp only [mem_dedup, mem_flatMap, mem_filter, mem_append,
      decide_eq_true_eq] at hrow
    obtain ⟨source, ⟨hsource | hsource, hpath⟩, hrow⟩ := hrow
    · exact .inl ⟨source, hsource, hpath, hrow⟩
    · exact .inr ⟨source, hsource, hpath, hrow⟩
  · intro h
    obtain ⟨marker, hmarker, rfl, hrow⟩ : ∃ marker ∈ existing ++ incoming,
        marker.filePath = path ∧ row ∈ marker.rowIndices := by
      obtain ⟨marker, hmarker, hrest⟩ | ⟨marker, hmarker, hrest⟩ := h
      · exact ⟨marker, mem_append_left _ hmarker, hrest⟩
      · exact ⟨marker, mem_append_right _ hmarker, hrest⟩
    refine ⟨_, mem_map_of_mem (mem_dedup.mpr (mem_map_of_mem hmarker)), rfl, ?_⟩
    simp only [mem_dedup, mem_flatMap, mem_filter, decide_eq_true_eq]
    exact ⟨marker, ⟨hmarker, rfl⟩, hrow⟩

theorem filePath_mem_merge {existing incoming : List DeleteMarker}
    (h : path ∈ (mergeDeleteMarkers existing incoming).map DeleteMarker.filePath) :
    path ∈ existing.map DeleteMarker.filePath ∨ path ∈ incoming.map DeleteMarker.filePath := by
  have hmem : path ∈ (existing ++ incoming).map DeleteMarker.filePath := by
    simp only [mergeDeleteMarkers] at h
    simpa [Function.comp_def] using h
  rwa [map_append, mem_append] at hmem

theorem visibleRows_of_not_mem
    (h : path ∉ markers.map DeleteMarker.filePath) :
    visibleRows content markers path = content path := by
  rw [← keptRows_true content path]
  exact keptRows_congr content fun row => by rw [deletedRow_eq_false_of_not_mem h row]; rfl

theorem markedRows_of_not_mem
    (h : path ∉ markers.map DeleteMarker.filePath) : markedRows content markers path = 0 := by
  rw [← keptRows_false content path]
  exact keptRows_congr content (deletedRow_eq_false_of_not_mem h)

theorem visibleRows_merge {existing incoming : List DeleteMarker}
    (h : ∀ row, deletedRow incoming path row → deletedRow existing path row = false) :
    visibleRows content (mergeDeleteMarkers existing incoming) path +
      markedRows content incoming path = visibleRows content existing path := by
  unfold visibleRows markedRows
  rw [keptRows_add]
  · apply keptRows_congr
    intro row
    rw [deletedRow_merge]
    have hrow := h row
    revert hrow
    cases deletedRow existing path row <;> cases deletedRow incoming path row <;> simp
  · intro row
    rw [deletedRow_merge]
    simp

variable {paths : List String}

theorem sum_markedRows (hpaths : paths.Nodup) (h : ∀ marker ∈ markers, marker.filePath ∈ paths) :
    (paths.map (markedRows content markers)).sum = named content markers := by
  unfold named
  rw [← sum_toFinset _ hpaths, ← sum_toFinset _ (nodup_dedup _)]
  symm
  refine Finset.sum_subset ?_ ?_
  · intro path hpath
    simp only [mem_toFinset, mem_dedup, mem_map] at hpath ⊢
    obtain ⟨marker, hmarker, rfl⟩ := hpath
    exact h marker hmarker
  · intro path _ hpath
    refine markedRows_of_not_mem fun hmem => hpath ?_
    simpa using hmem

theorem visible_of_perm {manifest : PartitionManifest} (h : manifest.paths.Perm paths) :
    visible content manifest = (paths.map (visibleRows content manifest.deleteMarkers)).sum :=
  (h.map _).sum_eq

theorem sum_visibleRows_of_not_mem
    (h : ∀ path ∈ paths, path ∉ markers.map DeleteMarker.filePath) :
    (paths.map (visibleRows content markers)).sum = stored content paths := by
  congr 1
  exact map_congr_left fun path hpath => visibleRows_of_not_mem (h path hpath)

end Wadjet.Storage.Catalog
