import Mathlib.Data.List.Sort
import Wadjet.Storage.Catalog.Ddl

namespace Wadjet.Storage.Catalog

open Wadjet.Data List

inductive Key where
  | manifest (name : String)
  | metaList
  | table (name : String)
deriving Repr, DecidableEq

inductive Value where
  | manifest (manifest : PartitionManifest)
  | metaList (tables : List String)
  | table (record : TableMeta)
deriving Repr, DecidableEq

namespace Kv

def get (kv : Kv) : Key → Option Value
  | .manifest name => (kv.getManifest name).map .manifest
  | .metaList => some (.metaList kv.tables)
  | .table name => (kv.table.lookup name).map .table

def put (kv : Kv) : Key × Value → Kv
  | (.manifest name, .manifest manifest) => kv.putManifest name manifest
  | (.metaList, .metaList tables) => kv.putMeta tables
  | (.table name, .table record) => kv.putTable name record
  | _ => kv

-- In the order of the key texts: "manifest." sorts before "meta" and "meta"
-- before "table.".
def list (kv : Kv) : List Key :=
  (kv.manifest.keys.insertionSort (· ≤ ·)).map .manifest ++
    .metaList :: (kv.table.keys.insertionSort (· ≤ ·)).map .table

end Kv

inductive Operation where
  | ddl (ddl : Ddl)
  | commit (name : String) (call : Call)

inductive SnapshotPhase where
  | start
  | reading (keys : List Key) (taken : List (Key × Value))
  | succeeded (taken : List (Key × Value))
  | failed (key : Key)
deriving Repr, DecidableEq

inductive Phase where
  | ddl (phase : DdlPhase)
  | attempt (count : Nat)
  | seen (count : Nat) (manifest : PartitionManifest) (revision : Nat)
  | succeeded
  | failed (error : DdlError)
  | snapshot (phase : SnapshotPhase)
deriving Repr, DecidableEq

def advanceCommit (name : String) (call : Call) (kv : Kv) : Phase → Option (Kv × Phase)
  | .attempt count =>
    if call.asksNothing then some (kv, .succeeded)
    else if 10 ≤ count then some (kv, .failed (.commit .retriesExhausted))
    else
      match kv.manifest.lookup name with
      | none => some (kv, .failed (.notFound name))
      | some (manifest, revision) => some (kv, .seen count manifest revision)
  | .seen count manifest revision =>
    match call.mutate manifest with
    | .error error => some (kv, .failed (.commit error))
    | .ok changed =>
      if (kv.manifest.lookup name).map Prod.snd = some revision then
        some (kv.putManifest name changed, .succeeded)
      else some (kv, .attempt (count + 1))
  | _ => none

def Operation.advance : Operation → Kv → Phase → Option (Kv × Phase)
  | .ddl call, kv, .ddl phase => (call.advance kv phase).map fun (kv, next) => (kv, .ddl next)
  | .commit name call, kv, phase => advanceCommit name call kv phase
  | _, _, _ => none

def Operation.start : Operation → Phase
  | .ddl _ => .ddl .start
  | .commit _ _ => .attempt 0

def snapshot (kv : Kv) : SnapshotPhase → Option SnapshotPhase
  | .start => some (.reading kv.list [])
  | .reading [] taken => some (.succeeded taken)
  | .reading (key :: rest) taken =>
    match kv.get key with
    | none => some (.failed key)
    | some value => some (.reading rest (taken ++ [(key, value)]))
  | _ => none

def emptyStore : Kv :=
  ⟨[], ∅, ∅, 1⟩

def restore (taken : List (Key × Value)) : Kv :=
  taken.foldl Kv.put emptyStore

namespace Kv

variable {key : Key} {entry : Key × Value} (kv : Kv)

theorem get_put_ne (h : key ≠ entry.1) : (kv.put entry).get key = kv.get key := by
  obtain ⟨other, value⟩ := entry
  cases other <;> cases value <;> try rfl
  case manifest.manifest name manifest =>
    cases key with
    | manifest found =>
      have hne : found ≠ name := fun heq => h (by rw [heq])
      simp [put, get, getManifest, putManifest, AList.lookup_insert_ne hne]
    | metaList => rfl
    | table found => rfl
  case metaList.metaList tables =>
    cases key with
    | manifest found => rfl
    | metaList => exact absurd rfl h
    | table found => rfl
  case table.table name record =>
    cases key with
    | manifest found => rfl
    | metaList => rfl
    | table found =>
      have hne : found ≠ name := fun heq => h (by rw [heq])
      simp [put, get, putTable, AList.lookup_insert_ne hne]

theorem get_put_self {held : Kv} {value : Value}
    (h : held.get key = some value) : (kv.put (key, value)).get key = some value := by
  cases key with
  | manifest name =>
    obtain ⟨manifest, -, rfl⟩ := Option.map_eq_some_iff.mp h
    simp [put, get, getManifest, putManifest]
  | metaList =>
    cases h
    rfl
  | table name =>
    obtain ⟨record, -, rfl⟩ := Option.map_eq_some_iff.mp h
    simp [put, get, putTable]

theorem get_foldl_put_ne (taken : List (Key × Value)) (kv : Kv)
    (h : key ∉ taken.map Prod.fst) : (taken.foldl put kv).get key = kv.get key := by
  induction taken generalizing kv with
  | nil => rfl
  | cons entry rest ih =>
    rw [map_cons, mem_cons, not_or] at h
    rw [foldl_cons, ih _ h.2, get_put_ne _ h.1]

theorem get_foldl_put (taken : List (Key × Value)) (kv : Kv) (hnodup : (taken.map Prod.fst).Nodup)
    (htyped : ∀ entry ∈ taken, ∃ held : Kv, held.get entry.1 = some entry.2) (h : entry ∈ taken) :
    (taken.foldl put kv).get entry.1 = some entry.2 := by
  induction taken generalizing kv with
  | nil => cases h
  | cons first rest ih =>
    obtain ⟨hfirst, hrest⟩ := nodup_cons.mp hnodup
    rw [foldl_cons]
    obtain rfl | h := mem_cons.mp h
    · rw [get_foldl_put_ne rest _ hfirst]
      obtain ⟨held, hheld⟩ := htyped entry mem_cons_self
      exact get_put_self kv hheld
    · exact ih _ hrest (fun entry hentry => htyped entry (mem_cons_of_mem _ hentry)) h

theorem mem_list_table (name : String) :
    Key.table name ∈ kv.list ↔ (kv.table.lookup name).isSome := by
  simp [list, AList.lookup_isSome, AList.mem_keys]

theorem mem_list_manifest (name : String) :
    Key.manifest name ∈ kv.list ↔ (kv.getManifest name).isSome := by
  simp [list, getManifest, AList.lookup_isSome, AList.mem_keys]

theorem mem_list_metaList : Key.metaList ∈ kv.list := by
  simp [list]

theorem nodup_list : kv.list.Nodup := by
  have hmanifests : ((kv.manifest.keys.insertionSort (· ≤ ·)).map Key.manifest).Nodup :=
    ((perm_insertionSort _ _).nodup_iff.mpr kv.manifest.keys_nodup).map
      fun _ _ heq => Key.manifest.inj heq
  have htables : ((kv.table.keys.insertionSort (· ≤ ·)).map Key.table).Nodup :=
    ((perm_insertionSort _ _).nodup_iff.mpr kv.table.keys_nodup).map
      fun _ _ heq => Key.table.inj heq
  refine hmanifests.append (nodup_cons.mpr ⟨by simp, htables⟩) ?_
  intro key hmanifest hother
  obtain ⟨name, -, rfl⟩ := mem_map.mp hmanifest
  simp at hother

end Kv

-- Beside the store: what it held when the snapshot listed its keys, its meta list when
-- the snapshot read it, and every state it has had since.
structure Moments where
  kv : Kv
  listed : Kv
  tablesRead : List String
  since : List Kv

def Moments.seen (moments : Moments) : SnapshotPhase → Moments
  | .reading (.metaList :: _) _ => { moments with tablesRead := moments.kv.tables }
  | _ => moments

section Runs

variable {Caller : Type} [DecidableEq Caller]

def advanceSnapshot (operations : Caller → Operation) : Option Caller → Moments → Phase →
    Option (Moments × Phase)
  | some caller, moments, phase =>
    ((operations caller).advance moments.kv phase).map fun (kv, next) =>
      ({ moments with kv, since := moments.since ++ [kv] }, next)
  | none, moments, .snapshot .start =>
    (snapshot moments.kv .start).map fun next =>
      (⟨moments.kv, moments.kv, [], [moments.kv]⟩, .snapshot next)
  | none, moments, .snapshot phase =>
    (snapshot moments.kv phase).map fun next => (moments.seen phase, .snapshot next)
  | _, _, _ => none

abbrev SnapshotState (Caller : Type) := Threads (Option Caller) Moments Phase

def snapshotStart (operations : Caller → Operation) (kv : Kv) : SnapshotState Caller :=
  ⟨⟨kv, kv, [], []⟩, fun
    | some caller => (operations caller).start
    | none => .snapshot .start⟩

-- Restoring gives a consistent catalog, and each value in it is one the key
-- held while the snapshot ran.
def RestoresConsistent (moments : Moments) (taken : List (Key × Value)) : Prop :=
  (∀ name ∈ (restore taken).tables,
    ((restore taken).table.lookup name).isSome ∧
      ((restore taken).getManifest name).isSome) ∧
  ∀ key value, (restore taken).get key = some value →
    ∃ kv ∈ moments.since, kv.get key = some value

structure Held (moments : Moments) (entry : Key × Value) : Prop where
  since : ∃ kv ∈ moments.since, kv.get entry.1 = some entry.2
  tables : entry.1 = .metaList → entry.2 = .metaList moments.tablesRead

-- What a snapshot knows while it runs: the keys it has read and those it has
-- yet to read are the keys it listed.
def Kept (moments : Moments) : SnapshotPhase → Prop
  | .reading left taken =>
    taken.map Prod.fst ++ left = moments.listed.list ∧ moments.kv ∈ moments.since ∧
      ∀ entry ∈ taken, Held moments entry
  | .succeeded taken =>
    taken.map Prod.fst = moments.listed.list ∧ ∀ entry ∈ taken, Held moments entry
  | _ => True

variable {moments : Moments} {phase : SnapshotPhase}

theorem Held.advance {entry : Key × Value} (h : Held moments entry) (kv : Kv) :
    Held { moments with kv, since := moments.since ++ [kv] } entry := by
  obtain ⟨⟨held, hheld, hget⟩, htables⟩ := h
  exact ⟨⟨held, mem_append_left _ hheld, hget⟩, htables⟩

theorem Kept.advance (h : Kept moments phase)
    (kv : Kv) : Kept { moments with kv, since := moments.since ++ [kv] } phase := by
  cases phase with
  | start => trivial
  | failed key => trivial
  | reading keys taken =>
    obtain ⟨hkeys, -, htaken⟩ := h
    exact ⟨hkeys, by simp, fun entry hentry => (htaken entry hentry).advance kv⟩
  | succeeded taken =>
    obtain ⟨hkeys, htaken⟩ := h
    exact ⟨hkeys, fun entry hentry => (htaken entry hentry).advance kv⟩

theorem Moments.seen_eq (moments : Moments) (phase : SnapshotPhase) :
    ∃ tablesRead, moments.seen phase = { moments with tablesRead } := by
  unfold seen
  split
  · exact ⟨_, rfl⟩
  · exact ⟨moments.tablesRead, rfl⟩

-- The meta list is read once, as the keys are listed once each.
theorem Held.read {key : Key} {rest : List Key} {taken : List (Key × Value)} {entry : Key × Value}
    (hkeys : taken.map Prod.fst ++ key :: rest = moments.listed.list) (hentry : entry ∈ taken)
    (h : Held moments entry) : Held (moments.seen (.reading (key :: rest) taken)) entry := by
  have hnodup := hkeys ▸ moments.listed.nodup_list
  have hne : entry.1 ≠ key := fun heq =>
    disjoint_of_nodup_append hnodup (mem_map_of_mem hentry) (heq ▸ mem_cons_self)
  cases key with
  | metaList => exact ⟨h.since, fun heq => absurd heq hne⟩
  | manifest name | table name => exact h

theorem Kept.read {next : SnapshotPhase} (h : Kept moments phase)
    (hphase : phase ≠ .start) (hnext : snapshot moments.kv phase = some next) :
    Kept (moments.seen phase) next := by
  cases phase with
  | start => exact absurd rfl hphase
  | failed key => cases hnext
  | succeeded taken => cases hnext
  | reading keys taken =>
    obtain ⟨hkeys, hnow, htaken⟩ := h
    cases keys with
    | nil =>
      cases hnext
      exact ⟨(append_nil _).symm.trans hkeys, htaken⟩
    | cons key rest =>
      simp only [snapshot] at hnext
      split at hnext
      case h_1 => cases hnext; trivial
      case h_2 value hvalue =>
        cases hnext
        have hread : ∀ entry ∈ taken ++ [(key, value)],
            Held (moments.seen (.reading (key :: rest) taken)) entry := by
          intro entry hentry
          obtain hentry | hentry := mem_append.mp hentry
          · exact (htaken entry hentry).read hkeys hentry
          · obtain rfl := mem_singleton.mp hentry
            cases key with
            | metaList => exact ⟨⟨moments.kv, hnow, hvalue⟩, fun _ => (Option.some.inj hvalue).symm⟩
            | manifest name | table name => exact ⟨⟨moments.kv, hnow, hvalue⟩, nofun⟩
        obtain ⟨tablesRead, hseen⟩ := moments.seen_eq (.reading (key :: rest) taken)
        rw [hseen] at hread ⊢
        exact ⟨by simpa using hkeys, hnow, hread⟩

def SnapshotInv (state : SnapshotState Caller) : Prop :=
  ∃ phase, state.phase none = .snapshot phase ∧ Kept state.store phase

variable {operations : Caller → Operation} {state : SnapshotState Caller}

theorem snapshotInv_step {caller : Option Caller} {next : Phase} (h : SnapshotInv state)
    (hadvance : advanceSnapshot operations caller state.store (state.phase caller) =
      some (moments, next)) : SnapshotInv ⟨moments, Function.update state.phase caller next⟩ := by
  obtain ⟨phase, hphase, hkept⟩ := h
  cases caller with
  | some caller =>
    obtain ⟨⟨kv, _⟩, -, heq⟩ := Option.map_eq_some_iff.mp hadvance
    cases heq
    exact ⟨phase, by simpa using hphase, hkept.advance kv⟩
  | none =>
    rw [hphase] at hadvance
    by_cases hstart : phase = .start
    · subst hstart
      cases hadvance
      exact ⟨.reading state.store.kv.list [], by simp, rfl,
        mem_singleton_self _, nofun⟩
    · have hread : (snapshot state.store.kv phase).map
          (fun next => (state.store.seen phase, Phase.snapshot next)) = some (moments, next) := by
        cases phase with
        | start => exact absurd rfl hstart
        | _ => exact hadvance
      obtain ⟨after, hafter, heq⟩ := Option.map_eq_some_iff.mp hread
      cases heq
      exact ⟨after, by simp, hkept.read hstart hafter⟩

theorem kept_of_run {kv : Kv}
    (h : Threads.Run (advanceSnapshot operations) (fun _ _ => True) (snapshotStart operations kv)
      state) : SnapshotInv state := by
  refine h.invariant (P := SnapshotInv) ⟨.start, rfl, trivial⟩ ?_
  intro state caller moments next hinv _ hadvance
  exact snapshotInv_step hinv hadvance

end Runs

section Restore

variable {moments : Moments} {taken : List (Key × Value)} {value : Value}
  (h : Kept moments (.succeeded taken))

include h

theorem restore_get_iff {key : Key} : (restore taken).get key = some value ↔ (key, value) ∈ taken ∨
      key ∉ moments.listed.list ∧ emptyStore.get key = some value := by
  obtain ⟨hkeys, htaken⟩ := h
  have htyped : ∀ entry ∈ taken, ∃ held : Kv, held.get entry.1 = some entry.2 := by
    intro entry hentry
    obtain ⟨held, -, hget⟩ := (htaken entry hentry).since
    exact ⟨held, hget⟩
  have hnodup : (taken.map Prod.fst).Nodup := hkeys ▸ moments.listed.nodup_list
  by_cases hkey : key ∈ taken.map Prod.fst
  · obtain ⟨⟨_, found⟩, hfound, rfl⟩ := mem_map.mp hkey
    have hget := Kv.get_foldl_put taken emptyStore hnodup htyped hfound
    have hlisted := hkeys ▸ hkey
    constructor
    · intro hvalue
      obtain rfl : found = value := Option.some.inj (hget.symm.trans hvalue)
      exact .inl hfound
    · rintro (hmem | ⟨hunlisted, -⟩)
      · exact Kv.get_foldl_put taken emptyStore hnodup htyped hmem
      · exact absurd hlisted hunlisted
  · rw [restore, Kv.get_foldl_put_ne taken emptyStore hkey]
    constructor
    · intro hvalue
      exact .inr ⟨hkeys ▸ hkey, hvalue⟩
    · rintro (hmem | ⟨-, hvalue⟩)
      · exact absurd (mem_map_of_mem hmem) hkey
      · exact hvalue

theorem restore_get_isSome {key : Key} (hempty : emptyStore.get key = none) :
    ((restore taken).get key).isSome ↔ key ∈ moments.listed.list := by
  rw [Option.isSome_iff_exists, ← h.1]
  simp only [restore_get_iff h, hempty, reduceCtorEq, and_false, or_false, mem_map]
  constructor
  · rintro ⟨value, hmem⟩
    exact ⟨_, hmem, rfl⟩
  · rintro ⟨⟨_, value⟩, hmem, rfl⟩
    exact ⟨value, hmem⟩

theorem restore_held {key : Key} (hvalue : (restore taken).get key = some value) :
    ∃ kv ∈ moments.since, kv.get key = some value := by
  obtain hmem | ⟨hunlisted, hempty⟩ := (restore_get_iff h).mp hvalue
  · exact (h.2 _ hmem).since
  · cases key with
    | metaList => exact absurd moments.listed.mem_list_metaList hunlisted
    | manifest name => cases hempty
    | table name => cases hempty

theorem restore_tables : (restore taken).tables = moments.tablesRead := by
  obtain hmem | ⟨hunlisted, -⟩ := (@restore_get_iff _ _ (.metaList (restore taken).tables) h .metaList).mp rfl
  · exact Value.metaList.inj ((h.2 _ hmem).tables rfl)
  · exact absurd moments.listed.mem_list_metaList hunlisted

theorem restoresConsistent_iff : RestoresConsistent moments taken ↔ ∀ name ∈ moments.tablesRead,
      (moments.listed.table.lookup name).isSome ∧
        (moments.listed.getManifest name).isSome := by
  have htable : ∀ name, ((restore taken).table.lookup name).isSome ↔
      (moments.listed.table.lookup name).isSome := by
    intro name
    rw [← moments.listed.mem_list_table, ← @restore_get_isSome _ _ h (.table name) rfl]
    simp [Kv.get]
  have hmanifest : ∀ name, ((restore taken).getManifest name).isSome ↔
      (moments.listed.getManifest name).isSome := by
    intro name
    rw [← moments.listed.mem_list_manifest, ← @restore_get_isSome _ _ h (.manifest name) rfl]
    simp [Kv.get]
  unfold RestoresConsistent
  simp only [htable, hmanifest, restore_tables h]
  exact and_iff_left fun key value => restore_held h

end Restore

-- A snapshot that succeeds restores to a consistent catalog exactly when each
-- table of the meta list it read had both its records when it listed the keys.
theorem snapshot_consistent_iff {Caller : Type} [DecidableEq Caller]
    {operations : Caller → Operation} {kv : Kv} {state : SnapshotState Caller}
    {taken : List (Key × Value)}
    (h : Threads.Run (advanceSnapshot operations) (fun _ _ => True) (snapshotStart operations kv)
      state)
    (hdone : state.phase none = .snapshot (.succeeded taken)) :
    RestoresConsistent state.store taken ↔ ∀ name ∈ state.store.tablesRead,
      (state.store.listed.table.lookup name).isSome ∧
        (state.store.listed.getManifest name).isSome := by
  obtain ⟨phase, hphase, hkept⟩ := kept_of_run h
  obtain rfl : phase = .succeeded taken := by
    rw [hdone] at hphase
    exact (Phase.snapshot.inj hphase).symm
  exact restoresConsistent_iff hkept

-- A table is created after the keys are listed and before the meta list is read.
def createDuring : Unit → Operation
  | () => .ddl (.createTable "a" "1" [])

def createDuringOrder : List (Option Unit) :=
  [none, some (), some (), some (), some (), none, none]

def createDuringEnd : Option (SnapshotState Unit) :=
  (snapshotStart createDuring emptyStore).runCallers (advanceSnapshot createDuring)
    (fun _ _ => True) createDuringOrder

def createDuringTaken : List (Key × Value) :=
  [(.metaList, .metaList ["a"])]

theorem snapshot_misses_created_table :
    ∃ state, Threads.Run (advanceSnapshot createDuring) (fun _ _ => True)
        (snapshotStart createDuring emptyStore) state ∧
      state.phase none = .snapshot (.succeeded createDuringTaken) ∧
      ¬ RestoresConsistent state.store createDuringTaken := by
  have hend : createDuringEnd.map (fun state => state.phase none) =
      some (.snapshot (.succeeded createDuringTaken)) := by decide
  obtain ⟨state, hstate, hphase⟩ := Option.map_eq_some_iff.mp hend
  refine ⟨state, Threads.Run.start.runCallers createDuringOrder hstate, hphase,
    fun hconsistent => ?_⟩
  have hmissing := (hconsistent.1 "a" (by decide)).1
  exact absurd hmissing (by decide)

-- The same create before the keys are listed is in the snapshot.
def createBeforeOrder : List (Option Unit) :=
  [some (), some (), some (), some (), none, none, none, none, none]

def createBeforeTaken : List (Key × Value) :=
  [(.manifest "a", .manifest ⟨[], [], "1"⟩), (.metaList, .metaList ["a"]),
    (.table "a", .table ⟨"a", "1"⟩)]

theorem snapshot_consistent_iff_before : ∃ state : SnapshotState Unit,
    state.phase none = .snapshot (.succeeded createBeforeTaken) ∧
      (RestoresConsistent state.store createBeforeTaken ↔
        ∀ name ∈ state.store.tablesRead,
          (state.store.listed.table.lookup name).isSome ∧
            (state.store.listed.getManifest name).isSome) := by
  let final := (snapshotStart createDuring emptyStore).runCallers (advanceSnapshot createDuring)
    (fun _ _ => True) createBeforeOrder
  have hend : final.map (fun state => state.phase none) =
      some (.snapshot (.succeeded createBeforeTaken)) := by decide
  obtain ⟨state, hstate, hdone⟩ := Option.map_eq_some_iff.mp hend
  exact ⟨state, hdone, snapshot_consistent_iff
    (Threads.Run.start.runCallers createBeforeOrder hstate) hdone⟩

end Wadjet.Storage.Catalog
