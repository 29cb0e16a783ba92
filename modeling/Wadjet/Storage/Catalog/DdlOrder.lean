import Mathlib.Data.Fintype.Basic
import Mathlib.Data.List.Permutation
import Wadjet.Storage.Catalog.Ddl

namespace Wadjet.Storage.Catalog

open Wadjet.Data List Function Option

abbrev Listing := String → Option (TableMeta × PartitionManifest)

def Ddl.apply (listing : Listing) : Ddl → Listing
  | createTable name incarnation seed =>
    match seedManifest incarnation seed with
    | .ok manifest => update listing name (some (⟨name, incarnation⟩, manifest))
    | .error _ => listing
  | dropTable name => update listing name none

-- The meta list names the tables, each once, and both records of a table are
-- those of its create.
structure Agrees (kv : Kv) (listing : Listing) : Prop where
  nodup : kv.tables.Nodup
  mem_iff : ∀ name, name ∈ kv.tables ↔ (listing name).isSome
  records : ∀ name record, listing name = some record →
    kv.table.lookup name = some record.1 ∧ kv.getManifest name = some record.2

-- Beside the store: who has returned, and who had before a call started.
structure History (Caller : Type) where
  kv : Kv
  returned : List Caller
  returnedBefore : Caller → List Caller

section Runs

variable {Caller : Type} [DecidableEq Caller] (calls : Caller → Ddl)

def History.moved (history : History Caller) (caller : Caller) (phase : DdlPhase) (kv : Kv)
    (next : DdlPhase) : History Caller where
  kv := kv
  returned := if next.returned then history.returned ++ [caller] else history.returned
  returnedBefore :=
    if phase.isStart then update history.returnedBefore caller history.returned
    else history.returnedBefore

def advanceDdl (caller : Caller) (history : History Caller)
    (phase : DdlPhase) : Option (History Caller × DdlPhase) :=
  ((calls caller).advance history.kv phase).map fun (kv, next) =>
    (history.moved caller phase kv next, next)

abbrev DdlState (Caller : Type) := Threads Caller (History Caller) DdlPhase

def ddlStart (kv : Kv) : DdlState Caller :=
  ⟨⟨kv, [], fun _ => []⟩, fun _ => .start⟩

def applyDdl (order : List Caller) (listing : Listing) : Listing :=
  order.foldl (fun listing caller => (calls caller).apply listing) listing

def Finished (state : DdlState Caller) : Prop :=
  ∀ caller, (state.phase caller).running = false

-- Some serial order of the successful calls, one that puts no call before a
-- call that had returned when it started, explains the catalog.
def Serializable (listing : Listing) (state : DdlState Caller) : Prop :=
  ∃ order : List Caller, order.Nodup ∧
    (∀ caller, caller ∈ order ↔ state.phase caller = .succeeded) ∧
    order.Pairwise (fun caller later => later ∉ state.store.returnedBefore caller) ∧
    Agrees state.store.kv (applyDdl calls order listing)

-- A call that is refused at its first read writes nothing.
def Ddl.writes (kv : Kv) : Ddl → Bool
  | createTable name incarnation seed =>
    decide (name ∉ kv.tables) && (seedManifest incarnation seed).isOk
  | dropTable name => name ∈ kv.tables

-- A call that will write starts only while no other call is between its read and its
-- write of the meta list, and no other call on its table is running.
def Exclusive (state : DdlState Caller) (caller : Caller) : Prop :=
  state.phase caller = .start → (calls caller).writes state.store.kv → ∀ other,
    (state.phase other).holdsMeta = false ∧
      ((state.phase other).running → (calls other).name ≠ (calls caller).name)

def Ddl.Holds (kv : Kv) : Ddl → DdlPhase → Prop
  | createTable name incarnation seed, .putManifest manifest tables =>
    seedManifest incarnation seed = .ok manifest ∧ name ∉ kv.tables ∧
      tables = kv.tables ++ [name]
  | createTable name incarnation seed, .putTable manifest tables =>
    seedManifest incarnation seed = .ok manifest ∧ name ∉ kv.tables ∧
      tables = kv.tables ++ [name] ∧ kv.getManifest name = some manifest
  | createTable name incarnation seed, .putMeta manifest tables =>
    seedManifest incarnation seed = .ok manifest ∧ name ∉ kv.tables ∧
      tables = kv.tables ++ [name] ∧ kv.getManifest name = some manifest ∧
      kv.table.lookup name = some ⟨name, incarnation⟩
  | dropTable name, .readManifest tables =>
    name ∈ kv.tables ∧ tables = kv.tables.filter (· ≠ name)
  | dropTable name, .dropMeta tables =>
    name ∈ kv.tables ∧ tables = kv.tables.filter (· ≠ name)
  | dropTable name, .rereadMeta => name ∉ kv.tables
  | dropTable name, .deleteTable => name ∉ kv.tables
  | dropTable name, .deleteManifest => name ∉ kv.tables
  | _, _ => True

-- A step of one call: it writes the meta list, or it leaves it and touches
-- the records of its own table only, and those only while it is not listed.
inductive DdlStep (kv : Kv) (ddl : Ddl) (phase : DdlPhase) : Kv → DdlPhase → Prop where
  | begins {next : DdlPhase} (hstart : phase = .start) (hlisted : next.listed = false)
      (hwrites : next.running → ddl.writes kv) (hholds : ddl.Holds kv next) : DdlStep kv ddl phase kv next
  | works {after : Kv} {next : DdlPhase} (hrunning : phase.running)
      (hmeta : next.holdsMeta = phase.holdsMeta) (hlisted : next.listed = phase.listed)
      (htables : after.tables = kv.tables)
      (hothers : ∀ other, other ≠ ddl.name → after.table.lookup other = kv.table.lookup other ∧
        after.getManifest other = kv.getManifest other)
      (hown : ddl.name ∈ kv.tables → after.table = kv.table ∧ after.manifest = kv.manifest)
      (hholds : ddl.Holds after next) : DdlStep kv ddl phase after next
  | writes {tables : List String} {next : DdlPhase} (hmeta : phase.holdsMeta)
      (hnext : next.holdsMeta = false) (hlisted : phase.listed = false)
      (hnextListed : next.listed) (hothers : ∀ other, other ≠ ddl.name →
        (other ∈ tables ↔ other ∈ kv.tables))
      (hagrees : ∀ listing, Agrees kv listing → Agrees (kv.putMeta tables) (ddl.apply listing))
      (hholds : ddl.Holds (kv.putMeta tables) next) :
      DdlStep kv ddl phase (kv.putMeta tables) next

end Runs

theorem Kv.getManifest_putManifest (kv : Kv) (name : String) (manifest : PartitionManifest) :
    (kv.putManifest name manifest).getManifest name = some manifest := by
  simp [getManifest, putManifest]

variable {name other : String}

theorem Kv.getManifest_putManifest_ne (kv : Kv) (h : other ≠ name) (manifest : PartitionManifest) :
    (kv.putManifest name manifest).getManifest other = kv.getManifest other := by
  simp [getManifest, putManifest, AList.lookup_insert_ne h]

theorem Kv.getManifest_deleteManifest_ne (kv : Kv) (h : other ≠ name) :
    (kv.deleteManifest name).getManifest other = kv.getManifest other := by
  simp [getManifest, deleteManifest, AList.lookup_erase_ne h]

variable {kv : Kv} {seed : List PendingFile} {incarnation : String}

theorem agrees_create {listing : Listing} {manifest : PartitionManifest} (h : Agrees kv listing)
    (hseed : seedManifest incarnation seed = .ok manifest) (hname : name ∉ kv.tables)
    (hmanifest : kv.getManifest name = some manifest)
    (htable : kv.table.lookup name = some ⟨name, incarnation⟩) :
    Agrees (kv.putMeta (kv.tables ++ [name]))
      ((Ddl.createTable name incarnation seed).apply listing) := by
  simp only [Ddl.apply, hseed]
  constructor
  case nodup =>
    refine h.nodup.append (nodup_singleton name) ?_
    simpa using hname
  case mem_iff =>
    intro other
    by_cases heq : other = name
    · simp [Kv.putMeta, heq]
    · simp [Kv.putMeta, heq, h.mem_iff]
  case records =>
    intro other record hrecord
    by_cases heq : other = name
    · subst heq
      obtain rfl : (⟨other, incarnation⟩, manifest) = record := by simpa using hrecord
      exact ⟨htable, hmanifest⟩
    · rw [update_of_ne heq] at hrecord
      exact h.records other record hrecord

theorem agrees_drop {listing : Listing} (h : Agrees kv listing) :
    Agrees (kv.putMeta (kv.tables.filter (· ≠ name))) ((Ddl.dropTable name).apply listing) := by
  constructor
  case nodup => exact h.nodup.filter _
  case mem_iff =>
    intro other
    by_cases heq : other = name
    · simp [Kv.putMeta, Ddl.apply, heq]
    · simp [Kv.putMeta, Ddl.apply, heq, h.mem_iff]
  case records =>
    intro other record hrecord
    by_cases heq : other = name
    · simp [Ddl.apply, heq] at hrecord
    · rw [Ddl.apply, update_of_ne heq] at hrecord
      exact h.records other record hrecord

variable {phase next : DdlPhase} {after : Kv}

theorem ddlStep_create (hholds : (Ddl.createTable name incarnation seed).Holds kv phase)
    (h : createTableWithFiles name incarnation seed kv phase = some (after, next)) :
    DdlStep kv (.createTable name incarnation seed) phase after next := by
  cases phase with
  | start =>
    simp only [createTableWithFiles] at h
    split_ifs at h with hname
    · cases h
      exact .begins rfl rfl nofun trivial
    · split at h
      case h_1 => cases h; exact .begins rfl rfl nofun trivial
      case h_2 manifest hseed =>
        cases h
        exact .begins rfl rfl (fun _ => by simp [Ddl.writes, hname, hseed, Except.isOk, Except.toBool])
          ⟨hseed, hname, rfl⟩
  | putManifest manifest tables =>
    obtain ⟨hseed, hname, htables⟩ := hholds
    cases h
    refine .works rfl rfl rfl rfl (fun other hother => ⟨rfl, ?_⟩)
      (fun hmem => absurd hmem hname) ⟨hseed, hname, htables, ?_⟩
    · exact kv.getManifest_putManifest_ne hother manifest
    · exact kv.getManifest_putManifest name manifest
  | putTable manifest tables =>
    obtain ⟨hseed, hname, htables, hmanifest⟩ := hholds
    cases h
    refine .works rfl rfl rfl rfl (fun other hother => ⟨?_, rfl⟩)
      (fun hmem => absurd hmem hname) ⟨hseed, hname, htables, hmanifest, ?_⟩
    · exact AList.lookup_insert_ne hother
    · exact AList.lookup_insert _
  | putMeta manifest tables =>
    obtain ⟨hseed, hname, rfl, hmanifest, htable⟩ := hholds
    cases h
    refine .writes rfl rfl rfl rfl (fun other hother => ?_)
      (fun listing hagrees => agrees_create hagrees hseed hname hmanifest htable) trivial
    have hne : other ≠ name := hother
    simp [hne]
  | _ => cases h

theorem ddlStep_drop (hholds : (Ddl.dropTable name).Holds kv phase)
    (h : dropTable name kv phase = some (after, next)) :
    DdlStep kv (.dropTable name) phase after next := by
  cases phase with
  | start =>
    simp only [dropTable] at h
    split_ifs at h with hname
    · cases h
      exact .begins rfl rfl (fun _ => decide_eq_true hname) ⟨hname, rfl⟩
    · cases h
      exact .begins rfl rfl nofun trivial
  | readManifest tables =>
    cases h
    exact .works rfl rfl rfl rfl (fun _ _ => ⟨rfl, rfl⟩) (fun _ => ⟨rfl, rfl⟩) hholds
  | dropMeta tables =>
    obtain ⟨hname, rfl⟩ := hholds
    cases h
    refine .writes rfl rfl rfl rfl (fun other hother => ?_) (fun _ => agrees_drop) ?_
    · have hne : other ≠ name := hother
      simp [hne]
    · show name ∉ kv.tables.filter (· ≠ name)
      simp
  | rereadMeta =>
    have hname : name ∉ kv.tables := hholds
    simp only [dropTable, if_neg hname] at h
    cases h
    exact .works rfl rfl rfl rfl (fun _ _ => ⟨rfl, rfl⟩) (fun _ => ⟨rfl, rfl⟩) hname
  | deleteTable =>
    have hname : name ∉ kv.tables := hholds
    cases h
    exact .works rfl rfl rfl rfl (fun other hother => ⟨AList.lookup_erase_ne hother, rfl⟩)
      (fun hmem => absurd hmem hname) hname
  | deleteManifest =>
    have hname : name ∉ kv.tables := hholds
    cases h
    exact .works rfl rfl rfl rfl
      (fun other hother => ⟨rfl, kv.getManifest_deleteManifest_ne hother⟩)
      (fun hmem => absurd hmem hname) trivial
  | _ => cases h

variable {ddl : Ddl}

theorem ddlStep_of_advance
    (hholds : ddl.Holds kv phase) (h : ddl.advance kv phase = some (after, next)) :
    DdlStep kv ddl phase after next := by
  cases ddl with
  | createTable name incarnation seed => exact ddlStep_create hholds h
  | dropTable name => exact ddlStep_drop hholds h

theorem returned_eq_false_of_advance
    (h : ddl.advance kv phase = some (after, next)) : phase.returned = false := by
  cases ddl <;> cases phase <;> first | rfl | cases h

theorem DdlPhase.running_of_holdsMeta {phase : DdlPhase} (h : phase.holdsMeta) :
    phase.running := by
  cases phase <;> first | rfl | cases h

theorem DdlPhase.isStart_of_running {phase : DdlPhase} (h : phase.running) :
    phase.isStart = false := by
  cases phase <;> first | rfl | cases h

theorem Ddl.Holds.frame {phase : DdlPhase} (h : ddl.Holds kv phase)
    (htables : phase.holdsMeta → after.tables = kv.tables)
    (hname : ddl.name ∈ after.tables ↔ ddl.name ∈ kv.tables)
    (htable : after.table.lookup ddl.name = kv.table.lookup ddl.name)
    (hmanifest : after.getManifest ddl.name = kv.getManifest ddl.name) :
    ddl.Holds after phase := by
  cases ddl with
  | createTable name incarnation seed =>
    cases phase <;> try trivial
    all_goals
      simp only [Ddl.Holds, Ddl.name] at *
      rw [htables rfl]
      simp_all
  | dropTable name =>
    cases phase <;> try trivial
    case readManifest => simp only [Ddl.Holds] at *; rwa [htables rfl]
    case dropMeta => simp only [Ddl.Holds] at *; rwa [htables rfl]
    all_goals exact fun hmem => h (hname.mp hmem)

theorem Ddl.holds_of_not_running {phase : DdlPhase}
    (h : phase.running = false) : ddl.Holds kv phase := by
  cases ddl <;> cases phase <;> trivial

section Invariant

variable {Caller : Type} [DecidableEq Caller] {calls : Caller → Ddl} {listing : Listing}

structure InOrder (calls : Caller → Ddl) (listing : Listing) (state : DdlState Caller)
    (order : List Caller) : Prop where
  nodup : order.Nodup
  mem_iff : ∀ caller, caller ∈ order ↔ (state.phase caller).listed
  ordered : order.Pairwise fun caller later => later ∉ state.store.returnedBefore caller
  agrees : Agrees state.store.kv (applyDdl calls order listing)
  returned : ∀ caller ∈ state.store.returned, (state.phase caller).returned
  before : ∀ caller, ∀ other ∈ state.store.returnedBefore caller,
    (state.phase other).returned
  alone : ∀ caller other, (state.phase caller).holdsMeta →
    (state.phase other).holdsMeta → caller = other
  apart : ∀ caller other, (state.phase caller).running →
    (state.phase other).running → (calls caller).name = (calls other).name → caller = other
  holds : ∀ caller, (calls caller).Holds state.store.kv (state.phase caller)

omit [DecidableEq Caller] in
theorem InOrder.start (h : Agrees kv listing) : InOrder calls listing (ddlStart kv) [] where
  nodup := nodup_nil
  mem_iff := by simp [ddlStart, DdlPhase.listed]
  ordered := List.Pairwise.nil
  agrees := h
  returned := by simp [ddlStart]
  before := by simp [ddlStart]
  alone := by simp [ddlStart, DdlPhase.holdsMeta]
  apart := by simp [ddlStart, DdlPhase.running, DdlPhase.isStart]
  holds _ := Ddl.holds_of_not_running rfl

-- The part of a step that every kind of step has in common: the caller's
-- phase moves, and what the others hold stays.
variable {state : DdlState Caller} {order : List Caller} {caller : Caller}
  {history : History Caller} {next : DdlPhase}

private theorem returned_update (hphase : (state.phase caller).returned = false) {other : Caller}
    (hother : (state.phase other).returned) :
    (update state.phase caller next other).returned := by
  have hne : other ≠ caller := by
    rintro rfl
    rw [hphase] at hother
    cases hother
  rwa [update_of_ne hne]

-- Two callers that are busy and clash are one, also after a caller that may be
-- busy has moved on.
private theorem unique_update {busy : DdlPhase → Bool} {R : Caller → Caller → Prop}
    (hsymm : ∀ {first second}, R first second → R second first)
    (h : ∀ first second, busy (state.phase first) → busy (state.phase second) →
      R first second → first = second)
    (hnext : busy next → ∀ other, busy (state.phase other) → R other caller → other = caller)
    (first second : Caller) (hfirst : busy (update state.phase caller next first))
    (hsecond : busy (update state.phase caller next second)) (hrel : R first second) :
    first = second := by
  by_cases heq : first = caller
  · subst heq
    rw [update_self] at hfirst
    by_cases heq : second = first
    · exact heq.symm
    · rw [update_of_ne heq] at hsecond
      exact (hnext hfirst second hsecond (hsymm hrel)).symm
  · rw [update_of_ne heq] at hfirst
    by_cases heq' : second = caller
    · subst heq'
      rw [update_self] at hsecond
      exact hnext hsecond first hfirst hrel
    · rw [update_of_ne heq'] at hsecond
      exact h first second hfirst hsecond hrel

section

variable (h : InOrder calls listing state order)

include h

private theorem alone_update (hnext : next.holdsMeta →
      ∀ other, (state.phase other).holdsMeta → other = caller) (first second : Caller)
    (hfirst : (update state.phase caller next first).holdsMeta)
    (hsecond : (update state.phase caller next second).holdsMeta) : first = second :=
  unique_update (R := fun _ _ => True) (fun _ => trivial)
    (fun first second hf hs _ => h.alone first second hf hs)
    (fun hn other ho _ => hnext hn other ho) first second hfirst hsecond trivial

private theorem holds_update (hcaller : (calls caller).Holds after next)
    (hmeta : ∀ other, other ≠ caller → (state.phase other).holdsMeta →
      after.tables = state.store.kv.tables)
    (hframe : ∀ other, other ≠ caller → (state.phase other).running →
      ((calls other).name ∈ after.tables ↔ (calls other).name ∈ state.store.kv.tables) ∧
      after.table.lookup (calls other).name = state.store.kv.table.lookup (calls other).name ∧
      after.getManifest (calls other).name = state.store.kv.getManifest (calls other).name)
    (other : Caller) : (calls other).Holds after (update state.phase caller next other) := by
  by_cases heq : other = caller
  · subst heq
    rwa [update_self]
  · rw [update_of_ne heq]
    by_cases hrunning : (state.phase other).running
    · obtain ⟨hname, htable, hmanifest⟩ := hframe other heq hrunning
      exact (h.holds other).frame (hmeta other heq) hname htable hmanifest
    · exact Ddl.holds_of_not_running (Bool.eq_false_iff.mpr hrunning)

private theorem mem_update_iff (hlisted : next.listed = (state.phase caller).listed) (other : Caller) :
    other ∈ order ↔ (update state.phase caller next other).listed := by
  rw [h.mem_iff]
  by_cases heq : other = caller
  · subst heq
    rw [update_self, hlisted]
  · rw [update_of_ne heq]

end

private theorem agrees_of_works (h : Agrees kv listing) (htables : after.tables = kv.tables)
    (hothers : ∀ other, other ≠ name → after.table.lookup other = kv.table.lookup other ∧
      after.getManifest other = kv.getManifest other)
    (hown : name ∈ kv.tables → after.table = kv.table ∧ after.manifest = kv.manifest) :
    Agrees after listing := by
  constructor
  case nodup => rw [htables]; exact h.nodup
  case mem_iff => rw [htables]; exact h.mem_iff
  case records =>
    intro other record hrecord
    obtain ⟨htable, hmanifest⟩ := h.records other record hrecord
    by_cases heq : other = name
    · subst heq
      have hmem : other ∈ kv.tables := (h.mem_iff other).mpr (by rw [hrecord]; rfl)
      obtain ⟨hsame, hsame'⟩ := hown hmem
      rw [hsame, Kv.getManifest, hsame']
      exact ⟨htable, hmanifest⟩
    · rw [(hothers other heq).1, (hothers other heq).2]
      exact ⟨htable, hmanifest⟩

section

variable (h : InOrder calls listing state order) (hnot : (state.phase caller).returned = false)

include h hnot

private theorem returned_moved : ∀ other ∈ (state.store.moved caller (state.phase caller) after next).returned,
    (update state.phase caller next other).returned := by
  intro other hother
  dsimp only [History.moved] at hother
  split_ifs at hother with hnext
  · obtain hother | hother := mem_append.mp hother
    · exact returned_update hnot (h.returned other hother)
    · obtain rfl := mem_singleton.mp hother
      rwa [update_self]
  · exact returned_update hnot (h.returned other hother)

private theorem before_moved (first : Caller) :
    ∀ other ∈ (state.store.moved caller (state.phase caller) after next).returnedBefore first,
      (update state.phase caller next other).returned := by
  intro other hother
  dsimp only [History.moved] at hother
  split_ifs at hother
  · by_cases heq : first = caller
    · rw [heq, update_self] at hother
      exact returned_update hnot (h.returned other hother)
    · rw [update_of_ne heq] at hother
      exact returned_update hnot (h.before first other hother)
  · exact returned_update hnot (h.before first other hother)

theorem InOrder.begins (hallowed : Exclusive calls state caller) (hstart : state.phase caller = .start)
    (hlisted : next.listed = false) (hwrites : next.running → (calls caller).writes state.store.kv)
    (hholds : (calls caller).Holds state.store.kv next) :
    InOrder calls listing ⟨state.store.moved caller (state.phase caller) state.store.kv next,
      update state.phase caller next⟩ order := by
  have hcaller : caller ∉ order := by
    rw [h.mem_iff, hstart]
    nofun
  refine ⟨h.nodup, mem_update_iff h (by rw [hlisted, hstart]; rfl), ?_, h.agrees,
    returned_moved h hnot, before_moved h hnot, ?_, ?_, ?_⟩
  · refine h.ordered.imp_of_mem fun {first second} hfirst _ hpair => ?_
    have hne : first ≠ caller := by rintro rfl; exact hcaller hfirst
    simpa [History.moved, hstart, DdlPhase.isStart, hne] using hpair
  · refine alone_update h fun hnext other hmeta => ?_
    have hother := hallowed hstart (hwrites (DdlPhase.running_of_holdsMeta hnext)) other
    rw [hother.1] at hmeta
    cases hmeta
  · exact unique_update .symm h.apart fun hnext other hrunning hname =>
      absurd hname ((hallowed hstart (hwrites hnext) other).2 hrunning)
  · exact holds_update h hholds (fun _ _ _ => rfl) fun _ _ _ => ⟨Iff.rfl, rfl, rfl⟩

theorem InOrder.works (hrunning : (state.phase caller).running)
    (hmeta : next.holdsMeta = (state.phase caller).holdsMeta)
    (hlisted : next.listed = (state.phase caller).listed)
    (htables : after.tables = state.store.kv.tables)
    (hothers : ∀ other, other ≠ (calls caller).name →
      after.table.lookup other = state.store.kv.table.lookup other ∧
        after.getManifest other = state.store.kv.getManifest other)
    (hown : (calls caller).name ∈ state.store.kv.tables →
      after.table = state.store.kv.table ∧ after.manifest = state.store.kv.manifest)
    (hholds : (calls caller).Holds after next) :
    InOrder calls listing ⟨state.store.moved caller (state.phase caller) after next,
      update state.phase caller next⟩ order := by
  have hstart := DdlPhase.isStart_of_running hrunning
  refine ⟨h.nodup, mem_update_iff h hlisted, ?_, agrees_of_works h.agrees htables hothers hown,
    returned_moved h hnot, before_moved h hnot, ?_, ?_, ?_⟩
  · simpa [History.moved, hstart] using h.ordered
  · refine alone_update h fun hnext other hother => ?_
    exact h.alone other caller hother (hmeta ▸ hnext)
  · exact unique_update .symm h.apart fun _ other hother => h.apart other caller hother hrunning
  · refine holds_update h hholds (fun _ _ _ => htables) fun other hne hother => ?_
    have hname : (calls other).name ≠ (calls caller).name := fun heq =>
      hne (h.apart other caller hother hrunning heq)
    exact ⟨by rw [← htables]; rfl, hothers _ hname⟩

-- A call takes its place in the order where it writes the meta list.
theorem InOrder.writes {tables : List String} (hmeta : (state.phase caller).holdsMeta)
    (hnext : next.holdsMeta = false) (hlisted : (state.phase caller).listed = false)
    (hnextListed : next.listed)
    (hothers : ∀ other, other ≠ (calls caller).name →
      (other ∈ tables ↔ other ∈ state.store.kv.tables))
    (hagrees : ∀ listing, Agrees state.store.kv listing →
      Agrees (state.store.kv.putMeta tables) ((calls caller).apply listing))
    (hholds : (calls caller).Holds (state.store.kv.putMeta tables) next) :
    InOrder calls listing ⟨state.store.moved caller (state.phase caller) (state.store.kv.putMeta tables)
      next, update state.phase caller next⟩ (order ++ [caller]) := by
  have hrunning := DdlPhase.running_of_holdsMeta hmeta
  have hstart := DdlPhase.isStart_of_running hrunning
  have hcaller : caller ∉ order := by
    rw [h.mem_iff, hlisted]
    nofun
  refine ⟨?_, ?_, ?_, ?_, returned_moved h hnot, before_moved h hnot, ?_, ?_, ?_⟩
  · exact h.nodup.append (nodup_singleton caller) (by simpa using hcaller)
  · intro other
    by_cases heq : other = caller
    · subst heq
      simp [hnextListed]
    · simp [heq, h.mem_iff]
  · -- A call that is still running had not returned when any other started.
    rw [pairwise_append]
    simp only [History.moved, hstart]
    refine ⟨h.ordered, pairwise_singleton _ _, fun first _ last hlast hmem => ?_⟩
    obtain rfl := mem_singleton.mp hlast
    rw [h.before first last hmem] at hnot
    cases hnot
  · rw [applyDdl, foldl_append]
    exact hagrees _ h.agrees
  · refine alone_update h fun hholdsMeta => ?_
    rw [hnext] at hholdsMeta
    cases hholdsMeta
  · exact unique_update .symm h.apart fun _ other hother => h.apart other caller hother hrunning
  · refine holds_update h hholds (fun other hne hother => ?_) fun other hne hother => ?_
    · exact absurd (h.alone other caller hother hmeta) hne
    · have hname : (calls other).name ≠ (calls caller).name := fun heq =>
        hne (h.apart other caller hother hrunning heq)
      exact ⟨hothers _ hname, rfl, rfl⟩

end

theorem InOrder.step (h : InOrder calls listing state order)
    (hallowed : Exclusive calls state caller)
    (hadvance : advanceDdl calls caller state.store (state.phase caller) = some (history, next)) :
    ∃ order, InOrder calls listing ⟨history, update state.phase caller next⟩ order := by
  obtain ⟨⟨after, _⟩, hstep, heq⟩ := map_eq_some_iff.mp hadvance
  cases heq
  have hnot := returned_eq_false_of_advance hstep
  cases ddlStep_of_advance (h.holds caller) hstep with
  | begins hstart hlisted hwrites hholds =>
    exact ⟨order, h.begins hnot hallowed hstart hlisted hwrites hholds⟩
  | works hrunning hmeta hlisted htables hothers hown hholds =>
    exact ⟨order, h.works hnot hrunning hmeta hlisted htables hothers hown hholds⟩
  | writes hmeta hnext hlisted hnextListed hothers hagrees hholds =>
    exact ⟨_, h.writes hnot hmeta hnext hlisted hnextListed hothers hagrees hholds⟩

theorem inOrder_of_run (hkv : Agrees kv listing)
    (h : Threads.Run (advanceDdl calls) (Exclusive calls) (ddlStart kv) state) :
    ∃ order, InOrder calls listing state order := by
  refine h.invariant (P := fun state => ∃ order, InOrder calls listing state order)
    ⟨[], InOrder.start hkv⟩ ?_
  rintro state caller history next ⟨order, hinv⟩ hallowed hadvance
  exact hinv.step hallowed hadvance

theorem DdlPhase.listed_iff_of_not_running {phase : DdlPhase} (h : phase.running = false) :
    phase.listed ↔ phase = .succeeded := by
  cases phase <;> first | simp [listed]; done | cases h

-- Calls that keep out of each other's way leave a catalog that a serial order
-- of the successful ones explains.
theorem exclusive_ddl_serializable {kv : Kv} (hkv : Agrees kv listing)
    (h : Threads.Run (advanceDdl calls) (Exclusive calls) (ddlStart kv) state)
    (hfinished : Finished state) : Serializable calls listing state := by
  obtain ⟨order, hinv⟩ := inOrder_of_run hkv h
  refine ⟨order, hinv.nodup, fun caller => ?_, hinv.ordered, hinv.agrees⟩
  rw [hinv.mem_iff, DdlPhase.listed_iff_of_not_running (hfinished caller)]

end Invariant

instance {Caller : Type} [Fintype Caller] (calls : Caller → Ddl) (state : DdlState Caller)
    (caller : Caller) : Decidable (Exclusive calls state caller) :=
  inferInstanceAs (Decidable (_ → _ → ∀ _, _ ∧ (_ → _)))

instance {Caller : Type} [Fintype Caller] (state : DdlState Caller) : Decidable (Finished state) :=
  inferInstanceAs (Decidable (∀ _, _))

def emptyKv : Kv :=
  ⟨[], ∅, ∅, 1⟩

private theorem agrees_emptyKv : Agrees emptyKv fun _ => none where
  nodup := nodup_nil
  mem_iff := by simp [emptyKv]
  records := by simp

-- A drop that has written the meta list cleans up while another table is made.
def tidyCalls : Fin 3 → Ddl
  | 0 => .createTable "a" "1" []
  | 1 => .dropTable "a"
  | 2 => .createTable "b" "2" []

def tidyOrder (a b c : Fin 3) : List (Fin 3) :=
  [a, a, a, a, b, b, b, c, b, c, b, c, b, c]

theorem exclusive_ddl_serializable_tidy :
    ∃ state, (ddlStart emptyKv).runCallers (advanceDdl tidyCalls) (Exclusive tidyCalls)
        (tidyOrder 0 1 2) = some state ∧
      state.store.kv.tables = ["b"] ∧ Serializable tidyCalls (fun _ => none) state := by
  let final := (ddlStart emptyKv).runCallers (advanceDdl tidyCalls) (Exclusive tidyCalls)
    (tidyOrder 0 1 2)
  have hend : final.map (fun state => (state.store.kv.tables, decide (Finished state))) = some (["b"], true) := by
    decide
  obtain ⟨state, hstate, hlast⟩ := map_eq_some_iff.mp hend
  obtain ⟨htables, hfinished⟩ := Prod.mk.inj hlast
  exact ⟨state, hstate, htables, exclusive_ddl_serializable agrees_emptyKv
    (Threads.Run.start.runCallers (tidyOrder 0 1 2) hstate) (of_decide_eq_true hfinished)⟩

-- Two creates read the empty meta list; the second write drops the first name.
def racingCreates : Bool → Ddl
  | false => .createTable "a" "1" []
  | true => .createTable "b" "2" []

theorem racing_creates_lose_table :
    ∃ state, Threads.Run (advanceDdl racingCreates) (fun _ _ => True) (ddlStart emptyKv) state ∧
      Agrees emptyKv (fun _ => none) ∧ Finished state ∧
      ¬ Serializable racingCreates (fun _ => none) state := by
  let callers := [false, true, false, false, false, true, true, true]
  let final := (ddlStart emptyKv).runCallers (advanceDdl racingCreates) (fun _ _ => True) callers
  have hend : final.map (fun state => (state.store.kv.tables, state.phase false,
      state.phase true)) = some (["b"], .succeeded, .succeeded) := by decide
  obtain ⟨state, hstate, hlast⟩ := map_eq_some_iff.mp hend
  obtain ⟨htables, hphases⟩ := Prod.mk.inj hlast
  obtain ⟨hfirst, hsecond⟩ := Prod.mk.inj hphases
  refine ⟨state, Threads.Run.start.runCallers callers hstate, agrees_emptyKv, ?_, ?_⟩
  · rintro (_ | _)
    · rw [hfirst]; rfl
    · rw [hsecond]; rfl
  · rintro ⟨order, hnodup, hmem, -, hagrees⟩
    have hperm : order.Perm [false, true] := by
      refine (perm_ext_iff_of_nodup hnodup (by decide)).mpr fun caller => ?_
      rw [hmem]
      cases caller <;> simp [hfirst, hsecond]
    have hlisted : ((applyDdl racingCreates order fun _ => none) "a").isSome := by
      have horder : order ∈ [[false, true], [true, false]] := mem_permutations'.mpr hperm
      obtain rfl | rfl : order = [false, true] ∨ order = [true, false] := by simpa using horder
      · decide
      · decide
    have hname := (hagrees.mem_iff "a").mpr hlisted
    rw [htables] at hname
    exact absurd hname (by decide)

end Wadjet.Storage.Catalog
