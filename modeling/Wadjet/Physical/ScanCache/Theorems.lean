import Mathlib.Data.List.Perm.Subperm
import Wadjet.Physical.ScanCache.Invariant

namespace Wadjet.Physical.ScanCache

open List

variable {α : Type}

section Columns

private theorem mem_addColumns (merged cols : List String) (name : String) :
    name ∈ addColumns merged cols ↔ name ∈ merged ∨ name ∈ cols := by
  unfold addColumns
  induction cols generalizing merged with
  | nil => simp
  | cons col rest ih =>
    rw [foldl_cons, ih]
    split
    · rename_i hin
      have hin : col ∈ merged := by simpa using hin
      simp only [mem_cons]
      constructor
      · rintro (h | h)
        · exact Or.inl h
        · exact Or.inr (Or.inr h)
      · rintro (h | rfl | h)
        · exact Or.inl h
        · exact Or.inl hin
        · exact Or.inr h
    · simp [or_assoc]

private theorem mem_union (scans : List (Scan α)) (merged : List String) (name : String) :
    name ∈ scans.foldl (fun merged scan => addColumns merged scan.requiredColumns) merged ↔
      name ∈ merged ∨ ∃ scan ∈ scans, name ∈ scan.requiredColumns := by
  induction scans generalizing merged with
  | nil => simp
  | cons scan rest ih => simp [ih, mem_addColumns, or_assoc]

variable {plan : Plan α}

theorem wanted_union (i : plan.Index) (name : String) (h : wanted (plan.scan i).columns name) :
    wanted plan.unionCols name := by
  have hmerged := plan.merged
  have hscan : plan.scan i ∈ plan.scans := get_mem plan.scans i
  unfold mergeDuplicateScans at hmerged
  split at hmerged
  · cases hmerged
  · split at hmerged
    · cases hmerged
    · split at hmerged
      · rw [← Option.some.inj hmerged]
        rfl
      · rename_i hcolumns
        have hnone : (plan.scan i).requiredColumns.isEmpty = false := by
          by_contra hempty
          exact hcolumns (any_eq_true.mpr ⟨_, hscan, by simpa using hempty⟩)
        rw [← Option.some.inj hmerged]
        simp only [wanted, Scan.columns, hnone, Bool.false_eq_true, if_false, Option.all_some,
          contains_eq_mem, decide_eq_true_eq] at h ⊢
        exact (mem_union _ _ _).mpr (Or.inr ⟨_, hscan, h⟩)

theorem named_of_live {group : Nat × List (Row α)} (hgroup : group ∈ plan.table.live) {row : Row α}
    (hrow : row ∈ group.2) : row.map Prod.fst = plan.table.schema := by
  obtain ⟨⟨file, f⟩, hfile, hmem⟩ := mem_flatMap.mp (mem_filter.mp hgroup).1
  obtain ⟨rows, hrows, rfl⟩ := mem_map.mp hmem
  exact plan.table.named file (fst_mem_of_mem_zipIdx hfile) rows hrows row hrow

private theorem read_congr {cols cols' : Option (List String)} {group : List (Row α)}
    (hgroup : ∀ row ∈ group, row.map Prod.fst = plan.table.schema)
    (h : ∀ name ∈ plan.table.schema, wanted cols name = wanted cols' name) :
    plan.table.read cols group = plan.table.read cols' group := by
  unfold Table.read
  congr 1
  · exact filter_congr h
  · apply map_congr_left
    intro row hrow
    apply filter_congr
    intro cell hcell
    apply h
    rw [← hgroup row hrow]
    exact mem_map_of_mem hcell

theorem project_read (i : plan.Index) {group : List (Row α)}
    (hgroup : ∀ row ∈ group, row.map Prod.fst = plan.table.schema) :
    plan.project i (plan.table.read plan.unionCols group) =
      plan.table.read (plan.scan i).columns group := by
  have hscan : plan.scan i ∈ plan.scans := get_mem plan.scans i
  have hunion := wanted_union i
  simp only [Plan.project, projectForConsumer]
  by_cases hempty : (plan.scan i).requiredColumns.isEmpty
  · rw [if_pos hempty]
    apply read_congr hgroup
    intro name _
    have hall : wanted (plan.scan i).columns name := by simp [wanted, Scan.columns, hempty]
    rw [hall, hunion name hall]
  · rw [if_neg hempty]
    have hcolumns : (plan.scan i).columns = some (plan.scan i).requiredColumns := by
      simp [Scan.columns, hempty]
    generalize hreq : (plan.scan i).requiredColumns = required at *
    have hsubset : required ⊆ plan.table.schema := hreq ▸ plan.required_subset _ hscan
    have hnodup : required.Nodup := hreq ▸ plan.required_nodup _ hscan
    have hin : ∀ name, required.contains name → wanted plan.unionCols name := by
      intro name hname
      exact hunion name (by simpa [hcolumns, wanted] using hname)
    have hnarrow : ∀ name, (required.contains name && wanted plan.unionCols name) =
        wanted (plan.scan i).columns name := by
      intro name
      rw [hcolumns]
      change _ = required.contains name
      cases hname : required.contains name with
      | false => rfl
      | true => rw [hin name hname, Bool.and_self]
    have hread : required ⊆ plan.table.schema.filter (wanted plan.unionCols) := by
      intro name hname
      exact mem_filter.mpr ⟨hsubset hname, hin name (by simpa using hname)⟩
    split
    · rename_i hlength
      apply read_congr hgroup
      intro name hname
      -- the entry has no more columns than the consumer, so it has the same
      have hperm := (subperm_of_subset hnodup hread).perm_of_length_le hlength
      rw [← hnarrow]
      cases hwanted : wanted plan.unionCols name with
      | false => simp
      | true =>
        have hmem : name ∈ required := hperm.mem_iff.mpr (mem_filter.mpr ⟨hname, hwanted⟩)
        simp [hmem]
    · split
      · rename_i hmissing
        have hfound : required ⊆ (plan.table.read plan.unionCols group).schema.filter
            (required.contains ·) := by
          intro name hname
          exact mem_filter.mpr ⟨hread hname, by simpa using hname⟩
        have hlength := (subperm_of_subset hnodup hfound).length_le
        rw [dedup_eq_self.mpr hnodup] at hmissing
        omega
      · simp only [Table.read, filter_filter, map_map, hnarrow, Function.comp_def]

end Columns

structure State.Good {plan : Plan α} (state : State plan) : Prop where
  complete : ∀ i, (state.consumers i).ended → (state.consumers i).failed = false →
    ∃ read : Nat × List (Row α) → Bool,
      (∀ group ∈ plan.table.live, read group = false → (plan.scan i).keeps group.2 = false) ∧
      (state.consumers i).received.Perm
        ((plan.table.live.filter read).map fun group => plan.table.read (plan.scan i).columns group.2)
  full : state.cache.done →
    state.cache.batches.Perm (plan.table.live.map fun group => plan.table.read plan.unionCols group.2)
  closes : state.cache.closes ≤ 1
  released : ∀ i, (state.consumers i).claimed →
    ((state.consumers i).ended ∨ (state.consumers i).failed ∨
      (state.consumers i).closed) →
    ∀ j, (state.consumers j).phase = .waiting → (state.wake j).isSome

section Invariants

variable {plan : Plan α} {state : State plan} {i : plan.Index}

section

variable (h : state.Inv)

include h

theorem State.Inv.closes_le : state.cache.closes ≤ 1 := by
  rw [h.cache.closes]
  split <;> omega

theorem State.Inv.released_of_over (hclaimed : (state.consumers i).claimed)
    (hover : (state.consumers i).ended ∨ (state.consumers i).failed ∨
      (state.consumers i).closed) : state.cache.Released := by
  have hok := h.consumers i
  unfold Consumer.Ok at hok
  cases hphase : (state.consumers i).phase <;> simp only [hphase] at hok
  · simp [hok.1] at hclaimed
  · simp [hok.1] at hclaimed
  · obtain ⟨-, hended, hfailed, -, -, -, hclosed⟩ := hok
    rcases hover with h | h | h
    · simp [hended] at h
    · simp [hfailed] at h
    · exact hclosed h
  · obtain ⟨-, -, -, -, hended, hreleased⟩ := hok
    rcases hover with h | h
    · exact Or.inl (hended h)
    · exact hreleased h
  · simp [hok.1] at hclaimed
  · exact hok.2 hclaimed

theorem State.Inv.wake_isSome (hreleased : state.cache.Released)
    (hphase : (state.consumers i).phase = .waiting) : (state.wake i).isSome := by
  have hready := h.cache.closed_iff.mpr hreleased
  simp only [State.wake, hphase, hready, ne_eq, not_true_eq_false, decide_false, Bool.or_self,
    Bool.false_eq_true, if_false]
  split <;> rfl

theorem State.Inv.filled_by (hdone : state.cache.done) :
    ∃ i, (state.consumers i).phase = .scanning ∧ plan.Serves i state.cache.batches := by
  obtain ⟨i, hphase⟩ := h.filled hdone
  have hok := h.consumers i
  simp only [Consumer.Ok, hphase] at hok
  obtain ⟨-, -, hperm, hinner, -⟩ := hok
  rw [hinner hdone, append_nil] at hperm
  exact ⟨i, hphase, hperm⟩

theorem State.Inv.received_of_ended (hended : (state.consumers i).ended) :
    state.cache.done ∧
      (state.consumers i).received = state.cache.batches.map (plan.project i) := by
  have hok := h.consumers i
  unfold Consumer.Ok at hok
  cases hphase : (state.consumers i).phase <;> simp only [hphase] at hok
  · simp [hok.2.1] at hended
  · simp [hok.2.1] at hended
  · simp [hok.2.1] at hended
  · exact ⟨hok.2.2.2.2.1 hended, hok.2.1⟩
  · obtain ⟨-, hdone, hreceived, hlength⟩ := hok
    rw [take_of_length_le (hlength hended)] at hreceived
    exact ⟨hdone, hreceived⟩
  · simp [hok.1] at hended

end

private theorem map_project_source (i j : plan.Index) :
    (plan.source j).map (plan.project i) =
      (plan.table.live.filter (plan.scan j).reads).map fun group =>
          plan.table.read (plan.scan i).columns group.2 := by
  rw [Plan.source, map_map]
  apply map_congr_left
  intro group hgroup
  exact project_read i fun _ => named_of_live (mem_filter.mp hgroup).1

theorem State.Inv.good (h : state.Inv)
    (hreads : ∀ i, plan.initFails i ∨ ∀ group ∈ plan.table.live, (plan.scan i).reads group) :
    state.Good where
  complete := by
    intro i hended _
    obtain ⟨hdone, hreceived⟩ := h.received_of_ended hended
    obtain ⟨j, -, hopens, hperm⟩ := h.filled_by hdone
    refine ⟨(plan.scan j).reads, ?_, ?_⟩
    · intro group hgroup hpruned
      have hread := (hreads j).resolve_left (by simp [hopens]) group hgroup
      simp [hread] at hpruned
    · rw [hreceived, ← map_project_source]
      exact hperm.map _
  full := by
    intro hdone
    obtain ⟨j, -, hopens, hperm⟩ := h.filled_by hdone
    have hall : plan.table.live.filter (plan.scan j).reads = plan.table.live :=
      filter_eq_self.mpr ((hreads j).resolve_left (by simp [hopens]))
    rwa [Plan.source, hall] at hperm
  closes := h.closes_le
  released := fun i hclaimed hover j hwaiting => h.wake_isSome (h.released_of_over hclaimed hover) hwaiting

end Invariants

section Drain

variable {plan : Plan α} {state : State plan} {i : plan.Index}

private theorem claimed_of_scanning (h : state.Inv) (hphase : (state.consumers i).phase = .scanning) :
    (state.consumers i).claimed := by
  have hok := h.consumers i
  simp only [Consumer.Ok, hphase] at hok
  exact hok.1

theorem Plan.Reachable.drained (h : plan.Reachable state)
    (hphase : (state.consumers i).phase = .scanning) (hdone : state.cache.done = false)
    (habandoned : state.cache.abandoned = false) :
    ∃ next : State plan, plan.Reachable next ∧ next.cache.done ∧
      (next.consumers i).phase = .scanning := by
  generalize hinner : (state.consumers i).inner = inner
  induction inner generalizing state with
  | nil =>
    have hstep : state.step (.next i .eos) =
        some (state.set i state.cache.finish { state.consumers i with ended := true }) := by
      simp [State.step, State.next, hphase, State.nextScan, hdone, hinner, habandoned]
    refine ⟨_, h.step _ hstep, ?_, ?_⟩
    · have hready := h.inv.ready_of_claimed (claimed_of_scanning h.inv hphase)
      exact (h.inv.cache.finish hready (by simp [Cache.Released, hdone, habandoned])).2.1
    · simpa [State.set] using hphase
  | cons batch rest ih =>
    have hstep : state.step (.next i (.batch 0)) =
        some (state.set i { state.cache with batches := state.cache.batches ++ [batch] }
          { state.consumers i with
            inner := rest
            received := (state.consumers i).received ++ [plan.project i batch] }) := by
      simp [State.step, State.next, hphase, State.nextScan, hdone, hinner]
    refine ih (h.step _ hstep) ?_ hdone habandoned ?_
    · simpa [State.set] using hphase
    · simp [State.set]

theorem Plan.exists_filled (plan : Plan α) {i : plan.Index} (hopens : plan.initFails i = false) :
    ∃ state : State plan, plan.Reachable state ∧ state.cache.done ∧
      state.cache.batches.Perm (plan.source i) := by
  let claimed : State plan := (State.initial plan).set i { Cache.empty with ready := .opened }
    { Consumer.idle with phase := .claiming, claimed := true }
  let scanning : State plan := claimed.set i claimed.cache
    { claimed.consumers i with phase := .scanning, inner := plan.source i }
  have hrun : Data.runEvents State.step (State.initial plan) [.init i, .innerInit i true] =
      some scanning := by
    simp [Data.runEvents, State.step, State.init, State.innerInit, State.initial, Consumer.idle, Cache.empty,
      scanning, claimed, State.set, hopens]
  have hscanning : plan.Reachable scanning := Data.Reachable.run (.start rfl) _ hrun
  obtain ⟨state, hstate, hdone, hphase⟩ := hscanning.drained (i := i) (by simp [scanning, State.set]) rfl rfl
  obtain ⟨j, hj, -, hperm⟩ := hstate.inv.filled_by hdone
  obtain rfl := hstate.inv.claimant j i (claimed_of_scanning hstate.inv hj)
    (claimed_of_scanning hstate.inv hphase)
  exact ⟨state, hstate, hdone, hperm⟩

end Drain

def orders : Table Nat where
  schema := ["id", "total"]
  nodup := by decide
  files := [[[[("id", 1), ("total", 10)]]]]
  named := by decide

-- A join above the first scan found no key of the only row group.
def ordersPlan : Plan Nat where
  table := orders
  scans := [⟨["id"], false, fun _ => false, false, fun _ => ⟨.covered, true, true, true, true, true⟩⟩,
    ⟨["total"], false, fun _ => true, false, fun _ => ⟨.covered, true, true, true, true, true⟩⟩]
  unionCols := some ["id", "total"]
  merged := by decide
  required_subset := by decide
  required_nodup := by decide

def filteredScan : ordersPlan.Index := ⟨0, by decide⟩

def plainScan : ordersPlan.Index := ⟨1, by decide⟩

def ordersRun : List (Event ordersPlan.scans.length) :=
  [.init filteredScan, .innerInit filteredScan true, .next filteredScan .eos, .init plainScan,
    .next plainScan .eos]

end Wadjet.Physical.ScanCache
