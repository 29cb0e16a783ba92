import Mathlib.Algebra.Order.BigOperators.Group.List
import Mathlib.Algebra.Order.Ring.Nat
import Wadjet.Storage.Catalog.Retire

namespace Wadjet.Storage.Catalog

open Wadjet.Data List Function

theorem raise_apply (count : String → Nat) (paths : List String) (path : String) :
    raise count paths path = count path + paths.count path := by
  induction paths generalizing count with
  | nil => rfl
  | cons first rest ih =>
    rw [raise, foldl_cons, ← raise, ih]
    by_cases heq : path = first
    · subst heq
      simp
      omega
    · simp [heq, Ne.symm heq]

theorem lower_apply (count : String → Nat) (paths : List String) (path : String) :
    lower count paths path = count path - paths.count path := by
  induction paths generalizing count with
  | nil => rfl
  | cons first rest ih =>
    rw [lower, foldl_cons, ← lower, ih]
    by_cases heq : path = first
    · subst heq
      simp
      omega
    · simp [heq, Ne.symm heq]

namespace RetirePhase

def registers : RetirePhase → Bool
  | registered => true
  | committed => true
  | failing => true
  | _ => false

def sweeps : RetirePhase → Bool
  | reading _ _ => true
  | deleting _ _ => true
  | swept => true
  | _ => false

end RetirePhase

def Seen (tables : List String) (manifest : String → PartitionManifest) (marked : List String) :
    RetirePhase → Prop
  | .reading unread live => ∃ read, tables = read ++ unread ∧
      ∀ table ∈ read, ∀ path ∈ marked, path ∈ (manifest table).paths → path ∈ live
  | .deleting paths live => (∀ path ∈ paths, path ∈ marked) ∧
      ∀ table ∈ tables, ∀ path ∈ marked, path ∈ (manifest table).paths → path ∈ live
  | _ => True

section Invariant

variable {Caller : Type} [DecidableEq Caller] {tables : List String} {jobs : Caller → Job}

-- The marks are the sums of what the calls that hold them declared, and no
-- path is marked on both sides.
structure Marked (tables : List String) (jobs : Caller → Job) (state : RetireState Caller) :
    Prop where
  registering : ∀ path, state.store.registering path =
    (state.store.inFlight.map fun caller => (jobs caller).registers.count path).sum
  retiring : ∀ path, state.store.retiring path =
    (state.store.sweeping.map fun caller => (state.store.marked caller).count path).sum
  exclusive : ∀ path, state.store.registering path = 0 ∨ state.store.retiring path = 0
  nodup : state.store.sweeping.Nodup
  inFlight : ∀ caller, (state.phase caller).registers → caller ∈ state.store.inFlight
  sweeping : ∀ caller, caller ∈ state.store.sweeping ↔ (state.phase caller).sweeps
  met : ∀ registration sweep, (registration, sweep) ∈ state.store.met →
    state.phase sweep ≠ .start ∧
      ∀ path ∈ (jobs registration).registers, path ∉ state.store.marked sweep
  deleted : ∀ sweep path, (sweep, path) ∈ state.store.deleted →
    state.phase sweep ≠ .start ∧ path ∈ state.store.marked sweep
  seen : ∀ caller, Seen tables state.store.manifest (state.store.marked caller)
    (state.phase caller)

variable {state : RetireState Caller} {manifest : String → PartitionManifest} {caller : Caller}

omit [DecidableEq Caller] in
theorem Marked.start :
    Marked tables jobs (retireStart manifest : RetireState Caller) where
  registering _ := rfl
  retiring _ := rfl
  exclusive _ := .inl rfl
  nodup := nodup_nil
  inFlight := by simp [retireStart, RetirePhase.registers]
  sweeping := by simp [retireStart, RetirePhase.sweeps]
  met := by simp [retireStart]
  deleted := by simp [retireStart]
  seen _ := trivial

section Sums

variable {callers : List Caller} {declared : Caller → List String} {path : String}
  {count : String → Nat}

omit [DecidableEq Caller] in
theorem sum_count_pos (hcaller : caller ∈ callers) (hpath : path ∈ declared caller) :
    0 < (callers.map fun caller => (declared caller).count path).sum :=
  lt_of_lt_of_le (count_pos_iff.mpr hpath) (le_sum_of_mem (mem_map_of_mem hcaller
    (f := fun caller => (declared caller).count path)))

theorem lower_eq_sum (hcaller : caller ∈ callers)
    (h : count path = (callers.map fun caller => (declared caller).count path).sum) :
    lower count (declared caller) path =
      ((callers.erase caller).map fun caller => (declared caller).count path).sum := by
  rw [lower_apply, h, ← sum_map_erase (fun other => (declared other).count path) hcaller,
    Nat.add_sub_cancel_left]

theorem lower_eq_zero (paths : List String) (h : count path = 0) : lower count paths path = 0 := by
  rw [lower_apply, h, Nat.zero_sub]

end Sums

omit [DecidableEq Caller] in
theorem Marked.registering_pos (h : Marked tables jobs state)
    (hcaller : caller ∈ state.store.inFlight) {path : String}
    (hpath : path ∈ (jobs caller).registers) : 0 < state.store.registering path :=
  h.registering path ▸ sum_count_pos hcaller hpath

omit [DecidableEq Caller] in
theorem Marked.retiring_pos (h : Marked tables jobs state)
    (hcaller : caller ∈ state.store.sweeping) {path : String}
    (hpath : path ∈ state.store.marked caller) : 0 < state.store.retiring path :=
  h.retiring path ▸ sum_count_pos hcaller hpath

omit [DecidableEq Caller] in
theorem Marked.apart (h : Marked tables jobs state) {registration sweep : Caller}
    (hregistration : registration ∈ state.store.inFlight) (hsweep : sweep ∈ state.store.sweeping)
    {path : String} (hpath : path ∈ (jobs registration).registers) :
    path ∉ state.store.marked sweep := by
  intro hmarked
  have hregistering := h.registering_pos hregistration hpath
  have hretiring := h.retiring_pos hsweep hmarked
  obtain hzero | hzero := h.exclusive path <;> omega

private theorem ne_start_update {phase : Caller → RetirePhase} {caller other : Caller}
    {next : RetirePhase} (hnext : next ≠ .start) (h : phase other ≠ .start) :
    update phase caller next other ≠ .start := by
  by_cases heq : other = caller
  · rw [heq, update_self]
    exact hnext
  · rwa [update_of_ne heq]

variable {next : RetirePhase}

section

variable (h : Marked tables jobs state)

include h

private theorem Marked.met_update (hnext : next ≠ .start)
    (registration sweep : Caller) (hmet : (registration, sweep) ∈ state.store.met) :
    update state.phase caller next sweep ≠ .start ∧
      ∀ path ∈ (jobs registration).registers, path ∉ state.store.marked sweep :=
  ⟨ne_start_update hnext (h.met registration sweep hmet).1, (h.met registration sweep hmet).2⟩

private theorem Marked.deleted_update (hnext : next ≠ .start)
    (sweep : Caller) (path : String) (hdeleted : (sweep, path) ∈ state.store.deleted) :
    update state.phase caller next sweep ≠ .start ∧ path ∈ state.store.marked sweep :=
  ⟨ne_start_update hnext (h.deleted sweep path hdeleted).1, (h.deleted sweep path hdeleted).2⟩

private theorem Marked.inFlight_update (hnext : next.registers → caller ∈ state.store.inFlight) (other : Caller) :
    (update state.phase caller next other).registers →
      other ∈ state.store.inFlight :=
  (forall_update_iff state.phase
    (p := fun other phase => phase.registers → other ∈ state.store.inFlight)).mpr
    ⟨hnext, fun other _ => h.inFlight other⟩ other

private theorem Marked.sweeping_update (hnext : next.sweeps = (state.phase caller).sweeps) (other : Caller) :
    other ∈ state.store.sweeping ↔
      (update state.phase caller next other).sweeps :=
  (forall_update_iff state.phase
    (p := fun other phase => other ∈ state.store.sweeping ↔ phase.sweeps)).mpr
    ⟨by rw [h.sweeping, hnext], fun other _ => h.sweeping other⟩ other

private theorem Marked.seen_update
    (hnext : Seen tables state.store.manifest (state.store.marked caller) next) (other : Caller) :
    Seen tables state.store.manifest (state.store.marked other)
      (update state.phase caller next other) :=
  (forall_update_iff state.phase (p := fun other phase =>
    Seen tables state.store.manifest (state.store.marked other) phase)).mpr
    ⟨hnext, fun other _ => h.seen other⟩ other

theorem Marked.idle {phase : RetirePhase} (hphase : state.phase caller = phase)
    (hregisters : next.registers → phase.registers) (hsweeps : next.sweeps = phase.sweeps)
    (hnext : next ≠ .start) (hseen : Seen tables state.store.manifest (state.store.marked caller) next) :
    Marked tables jobs ⟨state.store, update state.phase caller next⟩ where
  registering := h.registering
  retiring := h.retiring
  exclusive := h.exclusive
  nodup := h.nodup
  inFlight := h.inFlight_update fun hnow => h.inFlight caller (hphase ▸ hregisters hnow)
  sweeping := h.sweeping_update (hphase ▸ hsweeps)
  met := h.met_update hnext
  deleted := h.deleted_update hnext
  seen := h.seen_update hseen

theorem Marked.begin {begun : Shared Caller} (hphase : state.phase caller = .start)
    (hbegin : beginRegistration caller (jobs caller).registers state.store = some begun) :
    Marked tables jobs ⟨begun, update state.phase caller .registered⟩ := by
  unfold beginRegistration at hbegin
  split_ifs at hbegin with hretiring
  cases hbegin
  replace hretiring : ∀ path ∈ (jobs caller).registers, state.store.retiring path = 0 := by
    intro path hpath
    by_contra hpositive
    exact hretiring (any_eq_true.mpr ⟨path, hpath, decide_eq_true (Nat.pos_of_ne_zero hpositive)⟩)
  constructor
  case registering =>
    intro path
    show raise state.store.registering _ path = _
    rw [raise_apply, h.registering, map_cons, sum_cons, add_comm]
  case retiring => exact h.retiring
  case exclusive =>
    intro path
    show raise state.store.registering _ path = 0 ∨ _
    rw [raise_apply]
    by_cases hpath : path ∈ (jobs caller).registers
    · exact .inr (hretiring path hpath)
    · rw [count_eq_zero.mpr hpath]
      exact h.exclusive path
  case nodup => exact h.nodup
  case inFlight =>
    refine (forall_update_iff state.phase
      (p := fun other phase => phase.registers → other ∈ caller :: _)).mpr ?_
    exact ⟨fun _ => mem_cons_self,
      fun other _ hother => mem_cons_of_mem _ (h.inFlight other hother)⟩
  case sweeping => exact h.sweeping_update (by rw [hphase]; rfl)
  case met =>
    intro registration sweep hmet
    obtain hmet | hmet := mem_append.mp hmet
    · obtain ⟨_, hsweep, heq⟩ := mem_map.mp hmet
      obtain ⟨rfl, rfl⟩ := Prod.mk.inj heq
      refine ⟨ne_start_update nofun fun hstart => ?_, fun path hpath hmarked => ?_⟩
      · rw [h.sweeping, hstart] at hsweep
        cases hsweep
      · have hpositive := h.retiring_pos hsweep hmarked
        rw [hretiring path hpath] at hpositive
        exact absurd hpositive (Nat.lt_irrefl 0)
    · have hnext : RetirePhase.registered ≠ .start := nofun
      exact h.met_update hnext registration sweep hmet
  case deleted => exact h.deleted_update nofun
  case seen => exact h.seen_update trivial

theorem Marked.ends {phase : RetirePhase} (hphase : state.phase caller = phase)
    (hbusy : phase.registers) (hidle : phase.sweeps = false) (hregisters : next.registers = false)
    (hsweeps : next.sweeps = false) (hnext : next ≠ .start) (hseen : ∀ manifest marked,
        Seen tables manifest marked next) :
    Marked tables jobs ⟨endRegistration caller (jobs caller).registers state.store,
      update state.phase caller next⟩ where
  registering path := lower_eq_sum (h.inFlight caller (hphase ▸ hbusy)) (h.registering path)
  retiring := h.retiring
  exclusive path := (h.exclusive path).imp_left (lower_eq_zero _)
  nodup := h.nodup
  inFlight := by
    refine (forall_update_iff state.phase
      (p := fun other phase => phase.registers →
        other ∈ state.store.inFlight.erase caller)).mpr ⟨?_, fun other hne hother => ?_⟩
    · rw [hregisters]
      nofun
    · exact (mem_erase_of_ne hne).mpr (h.inFlight other hother)
  sweeping := h.sweeping_update (hphase ▸ hsweeps.trans hidle.symm)
  met := h.met_update hnext
  deleted := h.deleted_update hnext
  seen := h.seen_update (hseen _ _)

end

variable {marked : List String} {phase : RetirePhase}

theorem Seen.of_paths {manifest other : String → PartitionManifest}
    (h : Seen tables manifest marked phase)
    (hpaths : ∀ table, ∀ path ∈ marked, path ∈ (other table).paths →
      path ∈ (manifest table).paths) : Seen tables other marked phase := by
  cases phase with
  | reading unread live =>
    obtain ⟨read, hread, hlive⟩ := h
    exact ⟨read, hread, fun table htable path hpath hmem =>
      hlive table htable path hpath (hpaths table path hpath hmem)⟩
  | deleting paths live =>
    exact ⟨h.1, fun table htable path hpath hmem =>
      h.2 table htable path hpath (hpaths table path hpath hmem)⟩
  | _ => trivial

theorem seen_of_not_sweeps (h : phase.sweeps = false) : Seen tables manifest marked phase := by
  cases phase <;> trivial

section

variable (h : Marked tables jobs state)

include h

-- A manifest gains the paths of a registration in flight, and none of those is
-- marked by a running sweep.
theorem Marked.commit {registration : Registration}
    {changed : PartitionManifest} (hjob : jobs caller = .register registration)
    (hphase : state.phase caller = .registered)
    (hchange : registration.change (state.store.manifest registration.table) = .ok changed) :
    Marked tables jobs ⟨{ state.store with
      manifest := update state.store.manifest registration.table changed },
      update state.phase caller .committed⟩ := by
  have hmem := h.inFlight caller (by rw [hphase]; rfl)
  refine ⟨h.registering, h.retiring, h.exclusive, h.nodup, h.inFlight_update fun _ => hmem,
    h.sweeping_update (by rw [hphase]; rfl), h.met_update nofun, h.deleted_update nofun, ?_⟩
  refine (forall_update_iff state.phase (p := fun other phase =>
    Seen tables (update state.store.manifest registration.table changed)
      (state.store.marked other) phase)).mpr ⟨trivial, fun other _ => ?_⟩
  by_cases hsweeps : (state.phase other).sweeps
  · refine (h.seen other).of_paths fun table path hpath hnow => ?_
    by_cases htable : table = registration.table
    · subst htable
      rw [update_self] at hnow
      obtain hold | hnew := registration.adds _ _ hchange path hnow
      · exact hold
      · have hregisters : path ∈ (jobs caller).registers := by rwa [hjob]
        exact absurd hpath (h.apart hmem ((h.sweeping other).mpr hsweeps) hregisters)
    · rwa [update_of_ne htable] at hnow
  · exact seen_of_not_sweeps (Bool.eq_false_iff.mpr hsweeps)

theorem Marked.mark (hphase : state.phase caller = .start) (requests : List String) :
    Marked tables jobs ⟨markRetiring caller requests state.store,
      update state.phase caller (.reading tables [])⟩ := by
  have hnot : caller ∉ state.store.sweeping := by
    rw [h.sweeping, hphase]
    nofun
  have hmarked : ∀ path ∈ requests.filter (fun path => state.store.registering path = 0),
      state.store.registering path = 0 := by
    simp
  constructor
  case registering => exact h.registering
  case retiring =>
    intro path
    show raise state.store.retiring _ path = _
    rw [raise_apply, h.retiring, add_comm]
    simp only [markRetiring, map_cons, update_self]
    congr 2
    refine map_congr_left fun other hother => ?_
    rw [update_of_ne (by rintro rfl; exact hnot hother)]
  case exclusive =>
    intro path
    show _ ∨ raise state.store.retiring _ path = 0
    rw [raise_apply]
    by_cases hpath : path ∈ requests.filter (fun path => state.store.registering path = 0)
    · exact .inl (hmarked path hpath)
    · rw [count_eq_zero.mpr hpath]
      exact h.exclusive path
  case nodup => exact nodup_cons.mpr ⟨hnot, h.nodup⟩
  case inFlight => exact h.inFlight_update nofun
  case sweeping =>
    refine (forall_update_iff state.phase
      (p := fun other phase => other ∈ caller :: state.store.sweeping ↔
        phase.sweeps)).mpr ⟨by simp [RetirePhase.sweeps], fun other hne => ?_⟩
    rw [mem_cons, or_iff_right hne]
    exact h.sweeping other
  case met =>
    intro registration sweep hmet
    show _ ∧ ∀ path ∈ _, path ∉ update state.store.marked caller _ sweep
    obtain hmet | hmet := mem_append.mp hmet
    · obtain ⟨_, hregistration, heq⟩ := mem_map.mp hmet
      obtain ⟨rfl, rfl⟩ := Prod.mk.inj heq
      rw [update_self]
      refine ⟨by simp, fun path hpath hmem => ?_⟩
      have hpositive := h.registering_pos hregistration hpath
      rw [hmarked path hmem] at hpositive
      exact absurd hpositive (Nat.lt_irrefl 0)
    · obtain ⟨hstart, hapart⟩ := h.met registration sweep hmet
      have hne : sweep ≠ caller := by
        rintro rfl
        exact hstart hphase
      rw [update_of_ne hne]
      exact ⟨ne_start_update nofun hstart, hapart⟩
  case deleted =>
    intro sweep path hdeleted
    show _ ∧ path ∈ update state.store.marked caller _ sweep
    obtain ⟨hstart, hmem⟩ := h.deleted sweep path hdeleted
    have hne : sweep ≠ caller := by
      rintro rfl
      exact hstart hphase
    rw [update_of_ne hne]
    exact ⟨ne_start_update nofun hstart, hmem⟩
  case seen =>
    refine (forall_update_iff state.phase (p := fun other phase =>
      Seen tables state.store.manifest (update state.store.marked caller _ other)
        phase)).mpr ⟨⟨[], rfl, nofun⟩, fun other hne => ?_⟩
    rw [update_of_ne hne]
    exact h.seen other

theorem Marked.unmark (hphase : state.phase caller = .swept) :
    Marked tables jobs ⟨unmarkRetiring caller state.store,
      update state.phase caller .done⟩ where
  registering := h.registering
  retiring path := by
    have hmem : caller ∈ state.store.sweeping := by
      rw [h.sweeping, hphase]
      rfl
    exact lower_eq_sum hmem (h.retiring path)
  exclusive path := (h.exclusive path).imp_right (lower_eq_zero _)
  nodup := h.nodup.erase caller
  inFlight := h.inFlight_update nofun
  sweeping := by
    refine (forall_update_iff state.phase
      (p := fun other phase => other ∈ state.store.sweeping.erase caller ↔
        phase.sweeps)).mpr ⟨?_, fun other hne => ?_⟩
    · simp [RetirePhase.sweeps, h.nodup.not_mem_erase]
    · rw [mem_erase_of_ne hne]
      exact h.sweeping other
  met := h.met_update nofun
  deleted := h.deleted_update nofun
  seen := h.seen_update trivial

theorem Marked.delete {path : String} {rest live : List String}
    (hphase : state.phase caller = .deleting (path :: rest) live) :
    Marked tables jobs ⟨{ state.store with deleted := (caller, path) :: state.store.deleted },
      update state.phase caller (.deleting rest live)⟩ := by
  have hseen := h.seen caller
  rw [hphase] at hseen
  have hnext : RetirePhase.deleting rest live ≠ .start := nofun
  have hidle : Marked tables jobs
      ⟨state.store, update state.phase caller (.deleting rest live)⟩ :=
    h.idle hphase nofun rfl hnext
      ⟨fun other hother => hseen.1 other (mem_cons_of_mem _ hother), hseen.2⟩
  refine { hidle with deleted := fun sweep other hdeleted => ?_ }
  obtain heq | hdeleted := mem_cons.mp hdeleted
  · obtain ⟨rfl, rfl⟩ := Prod.mk.inj heq
    exact ⟨by simp, hseen.1 _ mem_cons_self⟩
  · exact hidle.deleted sweep other hdeleted

theorem Marked.registration {registration : Registration}
    {shared : Shared Caller} (hjob : jobs caller = .register registration)
    (hadvance : advanceRegistration caller registration state.store (state.phase caller) =
      some (shared, next)) : Marked tables jobs ⟨shared, update state.phase caller next⟩ := by
  have hpaths : (jobs caller).registers = registration.paths := by rw [hjob]; rfl
  obtain ⟨phase, hphase⟩ : ∃ phase, state.phase caller = phase := ⟨_, rfl⟩
  rw [hphase] at hadvance
  cases phase with
  | start =>
    simp only [advanceRegistration] at hadvance
    split at hadvance
    case h_1 =>
      cases hadvance
      exact h.idle hphase nofun rfl nofun trivial
    case h_2 begun hbegun =>
      cases hadvance
      exact h.begin hphase (by rwa [hpaths])
  | registered =>
    simp only [advanceRegistration] at hadvance
    split_ifs at hadvance
    · cases hadvance
      exact h.idle hphase (fun _ => rfl) rfl nofun trivial
    · split at hadvance
      case h_1 =>
        cases hadvance
        exact h.idle hphase (fun _ => rfl) rfl nofun trivial
      case h_2 changed hchanged =>
        cases hadvance
        exact h.commit hjob hphase hchanged
  | committed | failing =>
    cases hadvance
    rw [← hpaths]
    exact h.ends hphase rfl rfl rfl rfl nofun fun _ _ => trivial
  | _ => cases hadvance

theorem Marked.sweep {sweep : Sweep} {shared : Shared Caller}
    (hadvance : retireObjects tables caller sweep state.store (state.phase caller) =
      some (shared, next)) : Marked tables jobs ⟨shared, update state.phase caller next⟩ := by
  have hseen := h.seen caller
  obtain ⟨phase, hphase⟩ : ∃ phase, state.phase caller = phase := ⟨_, rfl⟩
  rw [hphase] at hadvance hseen
  cases phase with
  | start =>
    cases hadvance
    exact h.mark hphase sweep.requests
  | reading unread live =>
    obtain ⟨read, hread, hlive⟩ := hseen
    cases unread with
    | nil =>
      cases hadvance
      refine h.idle hphase nofun rfl nofun ⟨fun _ hpath => hpath, ?_⟩
      rwa [hread, append_nil]
    | cons table rest =>
      cases hadvance
      refine h.idle hphase nofun rfl nofun ⟨read ++ [table], by simp [hread], ?_⟩
      intro other hother path hpath hmem
      obtain hother | hother := mem_append.mp hother
      · exact mem_append_left _ (hlive other hother path hpath hmem)
      · obtain rfl := mem_singleton.mp hother
        exact mem_append_right _ hmem
  | deleting paths live =>
    cases paths with
    | nil =>
      cases hadvance
      exact h.idle hphase nofun rfl nofun trivial
    | cons path rest =>
      simp only [retireObjects] at hadvance
      split_ifs at hadvance
      · cases hadvance
        exact h.idle hphase nofun rfl nofun
          ⟨fun other hother => hseen.1 other (mem_cons_of_mem _ hother), hseen.2⟩
      · cases hadvance
        exact h.delete hphase
  | swept =>
    cases hadvance
    exact h.unmark hphase
  | _ => cases hadvance

end

theorem marked_of_run
    (h : Threads.Run (advanceJob tables jobs) (fun _ _ => True) (retireStart manifest) state) :
    Marked tables jobs state := by
  refine h.invariant (P := Marked tables jobs) Marked.start ?_
  intro state caller shared next hmarked _ hadvance
  unfold advanceJob at hadvance
  split at hadvance
  case h_1 registration hjob => exact hmarked.registration hjob hadvance
  case h_2 => exact hmarked.sweep hadvance

-- No object is deleted while a manifest names its path, and a sweep deletes
-- nothing that a registration it ran beside has registered.
theorem retirement_safe {manifest : String → PartitionManifest}
    (h : Threads.Run (advanceJob tables jobs) (fun _ _ => True) (retireStart manifest) state) :
    (∀ caller path, AboutToDelete jobs state caller path →
      ∀ table ∈ tables, path ∉ (state.store.manifest table).paths) ∧
    ∀ registration sweep path, state.phase registration = .succeeded →
      (registration, sweep) ∈ state.store.met → path ∈ (jobs registration).registers →
      (sweep, path) ∉ state.store.deleted := by
  have hmarked := marked_of_run h
  constructor
  · rintro caller path ⟨sweep, rest, live, -, hphase, hlive, -⟩ table htable hmem
    have hseen := hmarked.seen caller
    rw [hphase] at hseen
    exact hlive (hseen.2 table htable path (hseen.1 path mem_cons_self) hmem)
  · intro registration sweep path _ hmet hpath hdeleted
    exact (hmarked.met registration sweep hmet).2 path hpath
      (hmarked.deleted sweep path hdeleted).2

end Invariant

-- One sweep finds one of its two paths in the middle of a registration.
def sweptJobs : Bool → Job
  | true => .register ((Call.addNewFiles [] "p" [⟨"b", false⟩] "").registration "t" false)
  | false => .retire ⟨["a", "b"], fun _ => false⟩

def sweptOrder : List Bool :=
  [true, false, true, false, false, true, false, false, false]

theorem retirement_safe_swept :
    ∃ state, (retireStart fun _ => ⟨[], [], "i"⟩).runCallers (advanceJob ["t"] sweptJobs)
        (fun _ _ => True) sweptOrder = some state ∧
      state.store.deleted = [(false, "a")] ∧ (true, false) ∈ state.store.met ∧
      (false, "b") ∉ state.store.deleted := by
  let final := (retireStart fun _ => ⟨[], [], "i"⟩).runCallers (advanceJob ["t"] sweptJobs)
    (fun _ _ => True) sweptOrder
  have hend : final.map (fun state => (state.store.deleted, state.store.met,
      state.phase true)) = some ([(false, "a")], [(true, false)], .succeeded) := by
    decide
  obtain ⟨state, hstate, hstored⟩ := Option.map_eq_some_iff.mp hend
  obtain ⟨hdeleted, hrest⟩ := Prod.mk.inj hstored
  obtain ⟨hmet, hphase⟩ := Prod.mk.inj hrest
  have hpair : (true, false) ∈ state.store.met := by
    rw [hmet]
    exact mem_singleton_self _
  exact ⟨state, hstate, hdeleted, hpair,
    (retirement_safe (Threads.Run.start.runCallers sweptOrder hstate)).2 true false "b" hphase hpair
      (by decide)⟩

end Wadjet.Storage.Catalog
