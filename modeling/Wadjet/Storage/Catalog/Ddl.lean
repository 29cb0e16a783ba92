import Mathlib.Data.List.AList
import Wadjet.Data.Threads
import Wadjet.Storage.Catalog.Visible

namespace Wadjet.Storage.Catalog

structure TableMeta where
  name : String
  incarnation : String
deriving Repr, DecidableEq

-- The keys of one catalog: the meta list, table.<name> and manifest.<name>,
-- the manifests with the revision of their last write.
structure Kv where
  tables : List String
  table : AList fun _ : String => TableMeta
  manifest : AList fun _ : String => PartitionManifest × Nat
  nextRev : Nat

namespace Kv

variable (kv : Kv)

def putMeta (tables : List String) : Kv :=
  { kv with tables, nextRev := kv.nextRev + 1 }

variable (name : String)

def putTable (record : TableMeta) : Kv :=
  { kv with table := kv.table.insert name record, nextRev := kv.nextRev + 1 }

def putManifest (manifest : PartitionManifest) : Kv :=
  { kv with
    manifest := kv.manifest.insert name (manifest, kv.nextRev)
    nextRev := kv.nextRev + 1 }

def deleteTable : Kv :=
  { kv with table := kv.table.erase name }

def deleteManifest : Kv :=
  { kv with manifest := kv.manifest.erase name }

def getManifest : Option PartitionManifest :=
  (kv.manifest.lookup name).map Prod.fst

end Kv

inductive Ddl where
  | createTable (name incarnation : String) (seed : List PendingFile)
  | dropTable (name : String)
deriving Repr, DecidableEq

namespace Ddl

def name : Ddl → String
  | createTable name _ _ => name
  | dropTable name => name

end Ddl

inductive DdlError where
  | alreadyExists (name : String)
  | notFound (name : String)
  | commit (error : CommitError)
deriving Repr, DecidableEq

-- Where a call stands, named by the KV operation it makes next. The lists are
-- the meta list a call is about to write.
inductive DdlPhase where
  | start
  | putManifest (manifest : PartitionManifest) (tables : List String)
  | putTable (manifest : PartitionManifest) (tables : List String)
  | putMeta (manifest : PartitionManifest) (tables : List String)
  | readManifest (tables : List String)
  | dropMeta (tables : List String)
  | rereadMeta
  | deleteTable
  | deleteManifest
  | succeeded
  | failed (error : DdlError)
deriving Repr, DecidableEq

-- The first manifest of a table already holds the files of a CREATE TABLE AS.
def seedManifest (incarnation : String) (seed : List PendingFile) :
    Except CommitError PartitionManifest := do
  let partitions ← seed.foldlM (fun partitions pending =>
    addToPartition pending.partPath pending.partValues [pending.entry.own] partitions) []
  return ⟨partitions, [], incarnation⟩

def createTableWithFiles (name incarnation : String) (seed : List PendingFile) (kv : Kv) :
    DdlPhase → Option (Kv × DdlPhase)
  | .start =>
    if name ∈ kv.tables then some (kv, .failed (.alreadyExists name))
    else
      match seedManifest incarnation seed with
      | .error error => some (kv, .failed (.commit error))
      | .ok manifest => some (kv, .putManifest manifest (kv.tables ++ [name]))
  | .putManifest manifest tables => some (kv.putManifest name manifest, .putTable manifest tables)
  | .putTable manifest tables =>
    some (kv.putTable name ⟨name, incarnation⟩, .putMeta manifest tables)
  | .putMeta _ tables => some (kv.putMeta tables, .succeeded)
  | _ => none

def dropTable (name : String) (kv : Kv) : DdlPhase → Option (Kv × DdlPhase)
  | .start =>
    if name ∈ kv.tables then some (kv, .readManifest (kv.tables.filter (· ≠ name)))
    else some (kv, .failed (.notFound name))
  -- The paths read here are queued for a later sweep of the object store.
  | .readManifest tables => some (kv, .dropMeta tables)
  | .dropMeta tables => some (kv.putMeta tables, .rereadMeta)
  | .rereadMeta =>
    if name ∈ kv.tables then some (kv, .succeeded) else some (kv, .deleteTable)
  | .deleteTable => some (kv.deleteTable name, .deleteManifest)
  | .deleteManifest => some (kv.deleteManifest name, .succeeded)
  | _ => none

def Ddl.advance : Ddl → Kv → DdlPhase → Option (Kv × DdlPhase)
  | .createTable name incarnation seed => createTableWithFiles name incarnation seed
  | .dropTable name => Catalog.dropTable name

namespace DdlPhase

def returned : DdlPhase → Bool
  | succeeded => true
  | failed _ => true
  | _ => false

def isStart : DdlPhase → Bool
  | start => true
  | _ => false

def holdsMeta : DdlPhase → Bool
  | putManifest _ _ => true
  | putTable _ _ => true
  | putMeta _ _ => true
  | readManifest _ => true
  | dropMeta _ => true
  | _ => false

def running (phase : DdlPhase) : Bool :=
  !phase.isStart && !phase.returned

def listed : DdlPhase → Bool
  | rereadMeta => true
  | deleteTable => true
  | deleteManifest => true
  | succeeded => true
  | _ => false

end DdlPhase

end Wadjet.Storage.Catalog
