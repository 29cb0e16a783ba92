import Wadjet.Physical.TableScan.Model

namespace Wadjet.Physical.TableScan

open Wadjet.Data (Outcome WorkPool)

namespace Scan

def skips (scan : Scan) (group : RowGroup) : Bool :=
  if scan.isLazy then scan.lazySkips group
  else group.statsPruned || group.joinPruned || group.dictPruned

def expectedFile (scan : Scan) (f : Nat) (file : File) : Nat → List RowGroup → List RowId
  | _, [] => []
  | offset, group :: rest =>
    (if scan.skips group then [] else scan.groupRows f file offset group) ++
      expectedFile scan f file (offset + group.numRows) rest

variable (scan : Scan)

-- What the table owes the query: every row that no marker names, outside the
-- pruned row groups, that the pushed conjuncts select.
def expected : List RowId :=
  scan.files.zipIdx.flatMap fun (file, f) => scan.expectedFile f file 0 file.groups

def Complete : Prop :=
  scan.initFails = false → ∀ state, scan.pool.Reachable state →
    state.ended → state.failed = false → state.delivered.flatten.Perm scan.expected

def passesOver (file : File) : Bool :=
  if scan.isLazy then !file.wholeFile else file.footerFails || !file.ensureLoaded

-- Every row of the merged batch is deleted by the place it has in the file.
def Aligned (f : Nat) (file : File) : Prop :=
  ∀ entry ∈ (scan.activeRows f 0 file.groups).zipIdx, file.deleted entry.2 = file.deleted entry.1.2

def FileOk (f : Nat) (file : File) : Prop :=
  if scan.passesOver file then scan.expectedFile f file 0 file.groups = []
  else scan.isLazy → scan.Aligned f file

end Scan

section Numbered

variable {α : Type}

private theorem filter_numbered (rows : α × Nat → List RowId) (hrows : ∀ entry, ∀ row ∈ rows entry, row.1 = entry.2)
    (files : List α) (n i : Nat) {file : α} (h : files[i]? = some file) :
    ((files.zipIdx n).flatMap rows).filter (fun row => row.1 == n + i) = rows (file, n + i) := by
  induction files generalizing n i with
  | nil => simp at h
  | cons first rest ih =>
    have hother : ∀ m, m ≠ n → (rows (first, n)).filter (fun row => row.1 == m) = [] := by
      intro m hm
      apply List.filter_eq_nil_iff.mpr
      intro row hrow
      simp [hrows _ row hrow, hm.symm]
    cases i with
    | zero =>
      obtain rfl : first = file := by simpa using h
      have hself : (rows (first, n)).filter (fun row => row.1 == n) = rows (first, n) := by
        apply List.filter_eq_self.mpr
        intro row hrow
        simp [hrows _ row hrow]
      have hrest : ((rest.zipIdx (n + 1)).flatMap rows).filter (fun row => row.1 == n) = [] := by
        apply List.filter_eq_nil_iff.mpr
        intro row hrow
        obtain ⟨entry, hentry, hrow⟩ := List.mem_flatMap.mp hrow
        have hle := List.le_snd_of_mem_zipIdx hentry
        have := hrows _ row hrow
        simp
        omega
      simp [hself, hrest]
    | succ i =>
      have hrest := ih (n + 1) i (by simpa using h)
      have hindex : n + 1 + i = n + (i + 1) := by omega
      rw [hindex] at hrest
      simp only [List.zipIdx_cons, List.flatMap_cons, List.filter_append, hother (n + (i + 1)) (by omega),
        List.nil_append, hrest]

theorem perm_numbered_iff (rows rows' : α × Nat → List RowId)
    (hrows : ∀ entry, ∀ row ∈ rows entry, row.1 = entry.2)
    (hrows' : ∀ entry, ∀ row ∈ rows' entry, row.1 = entry.2) (files : List α) :
    (files.zipIdx.flatMap rows).Perm (files.zipIdx.flatMap rows') ↔
      ∀ entry ∈ files.zipIdx, (rows entry).Perm (rows' entry) := by
  constructor
  · rintro h ⟨file, i⟩ hentry
    have hfile := List.mem_zipIdx_iff_getElem?.mp hentry
    have hsame := h.filter fun row => row.1 == 0 + i
    rw [filter_numbered rows hrows files 0 i hfile, filter_numbered rows' hrows' files 0 i hfile] at hsame
    simpa using hsame
  · intro h
    exact List.Perm.flatMap_left _ h

end Numbered

section Positions

variable {α : Type} {xs : List α}

private theorem map_fst_filter_zipIdx (q : α → Bool) :
    (xs.zipIdx.filter fun entry => q entry.1).map Prod.fst = xs.filter q := by
  rw [show (fun entry : α × Nat => q entry.1) = q ∘ Prod.fst from rfl, ← List.filter_map,
    List.zipIdx_map_fst]

theorem perm_filter_zipIdx_iff (hnodup : xs.Nodup) (p : Nat → Bool) (q : α → Bool) :
    ((xs.zipIdx.filter fun entry => p entry.2).map Prod.fst).Perm (xs.filter q) ↔
      ∀ entry ∈ xs.zipIdx, p entry.2 = q entry.1 := by
  constructor
  · rintro h ⟨x, j⟩ hentry
    have hx : x ∈ xs := List.fst_mem_of_mem_zipIdx hentry
    have hplace : x ∈ (xs.zipIdx.filter fun entry => p entry.2).map Prod.fst ↔ p j := by
      constructor
      · intro hmem
        obtain ⟨⟨y, k⟩, hfilter, rfl⟩ := List.mem_map.mp hmem
        obtain ⟨hk, hp⟩ := List.mem_filter.mp hfilter
        have hkj : k = j := by
          obtain ⟨hk, hxk⟩ := List.getElem?_eq_some_iff.mp (List.mem_zipIdx_iff_getElem?.mp hk)
          obtain ⟨hj, hxj⟩ := List.getElem?_eq_some_iff.mp (List.mem_zipIdx_iff_getElem?.mp hentry)
          exact hnodup.getElem_inj_iff.mp (hxk.trans hxj.symm)
        exact hkj ▸ hp
      · intro hp
        exact List.mem_map.mpr ⟨(x, j), List.mem_filter.mpr ⟨hentry, hp⟩, rfl⟩
    have helement : x ∈ xs.filter q ↔ q x := by simp [hx]
    exact Bool.eq_iff_iff.mpr (hplace.symm.trans (h.mem_iff.trans helement))
  · intro h
    rw [List.filter_congr h, map_fst_filter_zipIdx]

end Positions

namespace Scan

variable {scan : Scan} {f : Nat} {file : File}

section Rows

variable {offset : Nat} {row : RowId}

theorem fst_of_mem_groupRows {group : RowGroup}
    (h : row ∈ scan.groupRows f file offset group) : row.1 = f := by
  obtain ⟨i, -, rfl⟩ := List.mem_map.mp h
  rfl

variable {groups : List RowGroup}

theorem fst_of_mem_expectedFile (h : row ∈ scan.expectedFile f file offset groups) : row.1 = f := by
  induction groups generalizing offset with
  | nil => simp [expectedFile] at h
  | cons group rest ih =>
    rcases List.mem_append.mp h with hgroup | hrest
    · split at hgroup
      · simp at hgroup
      · exact fst_of_mem_groupRows hgroup
    · exact ih hrest

theorem mem_activeRows
    (h : row ∈ scan.activeRows f offset groups) : row.1 = f ∧ offset ≤ row.2 := by
  induction groups generalizing offset with
  | nil => simp [activeRows] at h
  | cons group rest ih =>
    rcases List.mem_append.mp h with hgroup | hrest
    · split at hgroup
      · simp at hgroup
      · obtain ⟨i, -, rfl⟩ := List.mem_map.mp hgroup
        exact ⟨rfl, Nat.le_add_right offset i⟩
    · obtain ⟨hf, hle⟩ := ih hrest
      exact ⟨hf, by omega⟩

theorem activeRows_nodup (offset : Nat) (groups : List RowGroup) :
    (scan.activeRows f offset groups).Nodup := by
  induction groups generalizing offset with
  | nil => simp [activeRows]
  | cons group rest ih =>
    refine List.Nodup.append ?_ (ih _) ?_
    · split
      · exact List.nodup_nil
      · refine List.nodup_range.map ?_
        intro i j hij
        have := congrArg Prod.snd hij
        simpa using this
    · intro row hgroup hrest
      split at hgroup
      · simp at hgroup
      · obtain ⟨i, hi, rfl⟩ := List.mem_map.mp hgroup
        have hi := List.mem_range.mp hi
        have hle := (mem_activeRows hrest).2
        omega

theorem expectedFile_lazy (hlazy : scan.isLazy) (hpreds : scan.rowPreds = false) (offset : Nat)
    (groups : List RowGroup) :
    scan.expectedFile f file offset groups =
      (scan.activeRows f offset groups).filter fun row => !file.deleted row.2 := by
  induction groups generalizing offset with
  | nil => rfl
  | cons group rest ih =>
    simp only [expectedFile, activeRows, ih, skips, hlazy, if_true]
    split
    · rfl
    · simp [groupRows, selected, hpreds, List.filter_map, Function.comp_def]

end Rows

section Units

theorem readRG_cases (offset : Nat) (group : RowGroup) :
    scan.readRG f file offset group = .error ∨ scan.readRG f file offset group =
      .items (if file.ensureLoaded && !group.dictPruned then scan.groupRows f file offset group else []) := by
  unfold readRG
  by_cases hload : file.ensureLoaded
  swap
  · simp [hload]
  by_cases hdict : group.dictPruned
  · simp [hdict]
  simp only [hload, hdict, Bool.not_true, Bool.false_eq_true, if_false]
  by_cases hfilter : (scan.rowPreds && group.filterFails)
  · rw [if_pos hfilter]
    exact Or.inl rfl
  rw [if_neg hfilter]
  by_cases hnone : (scan.rowPreds && (List.range group.numRows).all fun i => !group.selects i)
  · have hempty : scan.groupRows f file offset group = [] := by
      simp only [groupRows, List.map_eq_nil_iff]
      simp_all [selected]
    rw [if_pos hnone, hempty]
    exact Or.inr rfl
  rw [if_neg hnone]
  split
  · exact Or.inl rfl
  · exact Or.inr rfl

variable {offset : Nat}

theorem readRG_list {group : RowGroup} (h : (scan.readRG f file offset group).isError = false) :
    (scan.readRG f file offset group).list =
      if file.ensureLoaded && !group.dictPruned then scan.groupRows f file offset group else [] := by
  rcases @readRG_cases scan f file offset group with herror | hitems
  · simp [herror, Outcome.isError] at h
  · rw [hitems]
    rfl

theorem fileUnits_list (hlazy : scan.isLazy = false) {groups : List RowGroup}
    (h : ∀ unit ∈ scan.fileUnits f file offset groups, unit.isError = false) :
    (scan.fileUnits f file offset groups).flatMap Outcome.list =
      if file.ensureLoaded then scan.expectedFile f file offset groups else [] := by
  induction groups generalizing offset with
  | nil => simp [fileUnits, expectedFile]
  | cons group rest ih =>
    have hrest := ih fun unit hunit => h unit (List.mem_append_right _ hunit)
    have hgroup : (if group.statsPruned || group.joinPruned then []
        else [scan.readRG f file offset group]).flatMap Outcome.list =
        if file.ensureLoaded then
          (if scan.skips group then [] else scan.groupRows f file offset group) else [] := by
      by_cases hpruned : (group.statsPruned || group.joinPruned)
      · simp [hpruned, skips, hlazy]
      · have hread := readRG_list (h (scan.readRG f file offset group)
          (List.mem_append_left _ (by simp [hpruned])))
        simp only [hpruned, Bool.false_eq_true, if_false, List.flatMap_singleton, hread, skips, hlazy]
        cases file.ensureLoaded <;> cases group.dictPruned <;> rfl
    rw [fileUnits, List.flatMap_append, hrest, hgroup]
    split <;> rfl

def deliveredFile (scan : Scan) (entry : File × Nat) : List RowId :=
  if scan.isLazy then (scan.readFile entry.2 entry.1).list
  else if entry.1.footerFails || !entry.1.ensureLoaded then []
  else scan.expectedFile entry.2 entry.1 0 entry.1.groups

theorem units_list (h : ∀ unit ∈ scan.pool.units, unit.isError = false) :
    scan.pool.units.flatMap Outcome.list = scan.files.zipIdx.flatMap scan.deliveredFile := by
  by_cases hlazy : scan.isLazy
  · simp only [pool, hlazy, if_true, lazyUnits, List.flatMap_map]
    refine List.flatMap_congr fun entry _ => ?_
    simp [deliveredFile, hlazy]
  have hlazy : scan.isLazy = false := by simpa using hlazy
  simp only [pool, hlazy, Bool.false_eq_true, if_false, buildRGUnits, List.flatMap_assoc] at h ⊢
  apply List.flatMap_congr
  rintro ⟨file, f⟩ hentry
  simp only [deliveredFile, hlazy]
  by_cases hfooter : file.footerFails
  · simp [hfooter]
  · have hunits : ∀ unit ∈ scan.fileUnits f file 0 file.groups, unit.isError = false := by
      intro unit hunit
      exact h unit (List.mem_flatMap.mpr ⟨(file, f), hentry, by simpa [hfooter] using hunit⟩)
    simp only [hfooter, Bool.false_eq_true, if_false, fileUnits_list hlazy hunits]
    cases file.ensureLoaded <;> rfl

theorem fst_of_mem_deliveredFile (entry : File × Nat) (row : RowId) (h : row ∈ scan.deliveredFile entry) :
    row.1 = entry.2 := by
  unfold deliveredFile at h
  split at h
  · unfold readFile at h
    split at h
    · simp [Outcome.list] at h
    · split at h
      · simp [Outcome.list] at h
      · obtain ⟨⟨found, j⟩, hfound, rfl⟩ := List.mem_map.mp h
        exact (mem_activeRows (List.fst_mem_of_mem_zipIdx (List.mem_filter.mp hfound).1)).1
  · split at h
    · simp at h
    · exact fst_of_mem_expectedFile h

theorem deliveredFile_perm_iff (hinit : scan.initFails = false) (entry : File × Nat)
    (hplain : scan.isLazy → (scan.readFile entry.2 entry.1).isError = false) :
    (scan.deliveredFile entry).Perm (scan.expectedFile entry.2 entry.1 0 entry.1.groups) ↔
      scan.FileOk entry.2 entry.1 := by
  obtain ⟨file, f⟩ := entry
  simp only [deliveredFile, FileOk, passesOver]
  by_cases hlazy : scan.isLazy
  · have hpreds : scan.rowPreds = false := by simpa [initFails, hlazy] using hinit
    simp only [hlazy, if_true, true_implies]
    by_cases hwhole : file.wholeFile
    · have hplain := hplain hlazy
      simp only [readFile, hwhole, Bool.not_true, Bool.false_eq_true, if_false] at hplain ⊢
      split at hplain
      · cases hplain
      · rename_i hpages
        rw [if_neg hpages, expectedFile_lazy hlazy hpreds]
        refine (perm_filter_zipIdx_iff (activeRows_nodup 0 file.groups) (fun j => !file.deleted j)
          (fun row => !file.deleted row.2)).trans ?_
        simp only [Aligned, Bool.not_inj_iff]
    · simp [readFile, hwhole, Outcome.list]
  · simp only [hlazy, Bool.false_eq_true, if_false]
    split
    · simp [List.nil_perm]
    · simp

end Units

-- The scan is complete exactly when a failure is reported, or no failure that
-- is passed over costs a row and no marker is read out of place.
theorem tableScan_complete_iff (scan : Scan) :
    scan.Complete ↔ scan.initFails ∨ (∃ unit ∈ scan.pool.units, unit.isError) ∨
      ∀ entry ∈ scan.files.zipIdx, scan.FileOk entry.2 entry.1 := by
  by_cases hinit : scan.initFails
  · simp [Complete, hinit]
  have hinit : scan.initFails = false := by simpa using hinit
  by_cases herror : ∃ unit ∈ scan.pool.units, unit.isError
  · refine iff_of_true ?_ (Or.inr (Or.inl herror))
    intro _ state hstate hended hfailed
    obtain ⟨unit, hunit, hfails⟩ := herror
    have hplain := (hstate.delivered hended hfailed).1 unit hunit
    simp [hfails] at hplain
  have hplain : ∀ unit ∈ scan.pool.units, unit.isError = false := by
    intro unit hunit
    by_contra hfails
    exact herror ⟨unit, hunit, by simpa using hfails⟩
  have hperm : scan.Complete ↔
      (scan.files.zipIdx.flatMap scan.deliveredFile).Perm scan.expected := by
    rw [← units_list hplain]
    constructor
    · intro hcomplete
      obtain ⟨state, hstate, hended, hfailed⟩ := WorkPool.exists_ended hplain
      exact (hstate.delivered hended hfailed).2.symm.trans (hcomplete hinit state hstate hended hfailed)
    · intro hsame _ state hstate hended hfailed
      exact (hstate.delivered hended hfailed).2.trans hsame
  rw [hperm, expected, perm_numbered_iff _ _ fst_of_mem_deliveredFile
    (fun entry row hrow => fst_of_mem_expectedFile hrow)]
  simp only [hinit, Bool.false_eq_true, false_or, herror]
  refine forall₂_congr fun entry hentry => deliveredFile_perm_iff hinit entry fun hlazy => ?_
  refine hplain _ ?_
  simp only [pool, hlazy]
  exact List.mem_map.mpr ⟨entry, hentry, rfl⟩

-- Two files of one row each, scanned by row group. The object of the second
-- cannot be opened, and the scan ends with the row of the first alone.
theorem tableScan_loses_rows :
    let group : RowGroup := ⟨1, false, false, false, fun _ => true, false, false⟩
    let file : Bool → File := fun opens => ⟨⟨.covered, false, false, opens, true, true⟩, [group], fun _ => false⟩
    let scan : Scan := ⟨[file true, file false], 0, false, false, false, 1, by decide, 1, by decide⟩
    scan.initFails = false ∧ ¬ scan.Complete := by
  intro group file scan
  have hinit : scan.initFails = false := by decide
  refine ⟨hinit, fun hcomplete => ?_⟩
  have hplain : ∀ unit ∈ scan.pool.units, unit.isError = false := by decide
  obtain ⟨state, hstate, hended, hfailed⟩ := WorkPool.exists_ended hplain
  have hdelivered := (hstate.delivered hended hfailed).2.symm.trans
    (hcomplete hinit state hstate hended hfailed)
  exact absurd hdelivered.length_eq (by decide)

end Scan

end Wadjet.Physical.TableScan
