import XyzDB.Engine.Find

/-!
# Changes of the store

Everything that a statement does to the store is one of these changes. A change of the trees is
one batch, and carries what it was made from: the records that are inserted, or the record that
is rewritten or removed as it was read.
-/

namespace XyzDB.Engine

open Std (ExtTreeMap ExtTreeSet)

/-- What a record is written as: its blob, its column, and the names of its lobe if there are
new ones. -/
structure Encoding where
  blob : Blob
  column : Option (List UInt8)
  names : Option (Key × List Text)

namespace Encoding

/-- The column and the names. -/
def sideOps (x : Encoding) (key : Key) : List KeyOp :=
  x.column.toList.map (.putVectors key) ++ x.names.toList.map fun n => .putFieldNames n.1 n.2

/-- The batch of a record that is written to a key. -/
def ops (x : Encoding) (key : Key) : List KeyOp := .putSpatial key x.blob :: x.sideOps key

end Encoding

/-- The anchors that a record has: name, printed value, and entry in the dictionary. -/
abbrev AnchorEntry := Text × Text × Key

/-- A new record. -/
structure Insertion where
  record : Record
  key : SpatialKey
  encoded : Encoding
  entries : List AnchorEntry
  /-- The gravity of the lobe that the record was placed by. -/
  spec : Option GravitySpec
  /-- The fields with a star. -/
  stars : List (Text × Value)
  /-- Whether the record went to the bucket of another one, that it is linked to. -/
  linked : Bool

namespace Insertion

def bytes (x : Insertion) : Key := x.key.toBytes

def ops (x : Insertion) : List KeyOp :=
  .putSpatial x.bytes x.encoded.blob :: .putIdentity x.record.lid x.bytes ::
    (x.encoded.sideOps x.bytes ++ x.entries.map fun e => .putDictionary e.2.2 x.record.lid)

end Insertion

/-- A record that is there and is written again. -/
structure Revision where
  /-- Where the record was found, and as what. -/
  oldKey : Key
  oldBlob : Blob
  old : Record
  /-- The key that the record moves to, if it moves. -/
  newKey : Option SpatialKey
  record : Record
  encoded : Encoding

namespace Revision

def key (u : Revision) : Key := (u.newKey.map SpatialKey.toBytes).getD u.oldKey

/-- The batch. In place, a column that the record no longer has stays. -/
def ops (u : Revision) : List KeyOp :=
  match u.newKey with
  | none => u.encoded.ops u.oldKey
  | some key =>
    .removeSpatial u.oldKey :: .putSpatial key.toBytes u.encoded.blob ::
      .putIdentity u.record.lid key.toBytes :: .removeVectors u.oldKey ::
        u.encoded.sideOps key.toBytes

end Revision

/-- A record that is removed. -/
structure Removal where
  record : Record
  key : Key
  entries : List AnchorEntry

namespace Removal

/-- `build_delete_ops`: the entries that lead to the record go before the record. -/
def ops (d : Removal) : List KeyOp :=
  d.entries.map (fun e => .removeDictionary e.2.2) ++
    [.removeIdentity d.record.lid, .removeVectors d.key, .removeSpatial d.key]

end Removal

/-- The single effects that the statements are made of. -/
inductive Change where
  /-- `get_or_create`. -/
  | lobe (name : Text)
  | anchor (lobe field : Text)
  /-- A gravity spec, in memory and on disk. -/
  | gravity (lobe : Text) (id : UInt16) (spec : GravitySpec)
  | vector (lobe : Text) (spec : VectorSpec)
  | satellite (lobe field : Text)
  | takeLid
  | takeSeq
  /-- The dictionary of a lobe after new names got their numbers. -/
  | fieldDict (registry : LobeFieldRegistry)
  | insert (xs : List Insertion)
  | upsert (u : Revision)
  | set (u : Revision)
  | link (u : Revision)
  | delete (d : Removal)
  | index (entry : Key) (lid : Lid)
  | notify (lobe : UInt16) (r : Record) (key : Key) (w : WriteType)
  | cacheRecord (lobe : UInt16) (r : Record)
  | uncacheRecord (lobe : UInt16) (lid : Lid)
  | cacheLobe (lobe : UInt16) (records : List Record)
  | uncacheLobe (lobe : UInt16)
  | allocGhost
  | ingestGhost (ghostId : UInt16) (spec : GhostSpec) (records : List (Record × Key))
  | insertGhost (g : GhostMeta)
  | lock (shard : ℕ)
  | unlock (shard : ℕ)

namespace Change

/-- What a change does to the trees. -/
def ops : Change → List KeyOp
  | .insert xs => xs.flatMap Insertion.ops
  | .upsert u => u.ops
  | .set u => u.ops
  | .link u => u.ops
  | .delete d => d.ops
  | .index entry lid => [.putDictionary entry lid]
  | _ => []

end Change

namespace Catalog

/-- `AnchorRegistry::register`. -/
def addAnchor (c : Catalog) (lobe field : Text) : Catalog :=
  { c with
    anchorRegistry := c.anchorRegistry.insert lobe ((c.anchorRegistry[lobe]?.getD ∅).insert field) }

def apply (c : Catalog) : Change → Catalog
  | .lobe name => { c with lobes := (c.lobes.getOrCreate name).2 }
  | .anchor lobe field => c.addAnchor lobe field
  | .gravity lobe id spec =>
    { c with
      gravitySpecs := c.gravitySpecs.insert lobe spec
      gravitySlots := c.gravitySlots.insert id ⟨spec, false⟩ }
  | .vector lobe spec => { c with vectorFields := c.vectorFields.insert lobe spec }
  | .satellite lobe field => { c with satelliteSpecs := c.satelliteSpecs.insert lobe field }
  | .takeLid => { c with lidSeq := c.lidSeq + 1 }
  | .takeSeq => { c with recordSeq := c.recordSeq + 1 }
  | .fieldDict registry => { c with fieldRegistry := registry }
  | _ => c

end Catalog

def onCachedLobe (cache : RecordCache) (lobe : UInt16)
    (f : ExtTreeMap Lid Record → ExtTreeMap Lid Record) : RecordCache :=
  match cache[lobe]? with
  | some records => cache.insert lobe (f records)
  | none => cache

/-- `update_record`, `invalidate_record`, `load_records` and `evict_lobe`. A record is taken in
only for a lobe that is cached. -/
def cacheApply (cache : RecordCache) : Change → RecordCache
  | .cacheRecord lobe r => onCachedLobe cache lobe (·.insert r.lid r)
  | .uncacheRecord lobe lid => onCachedLobe cache lobe (·.erase lid)
  | .cacheLobe lobe records =>
    cache.insert lobe (records.foldl (fun m r => m.insert r.lid r) (cache[lobe]?.getD ∅))
  | .uncacheLobe lobe => cache.erase lobe
  | _ => cache

section

variable (p : Platform)

def GhostStore.apply (gs : GhostStore) : Change → GhostStore
  | .notify lobe r key w => gs.notifyWrite p lobe r key w
  | .allocGhost => gs.allocId
  | .ingestGhost ghostId spec records => gs.ingest p ghostId spec records
  | .insertGhost g => gs.insertGhost g
  | _ => gs

def lockApply (locks : List ℕ) : Change → List ℕ
  | .lock shard => shard :: locks
  | .unlock shard => locks.erase shard
  | _ => locks

/-- The store after a change. -/
def Db.apply (db : Db) (c : Change) : Db where
  catalog := db.catalog.apply c
  trees := db.trees.commit c.ops
  recordCache := db.recordCache.map (cacheApply · c)
  ghosts := db.ghosts.apply p c
  locks := lockApply db.locks c

end

/-- A statement, as a program that reads the database and makes changes to it. -/
abbrev Run (α : Type) := Prog XyzError Db Change α

end XyzDB.Engine
