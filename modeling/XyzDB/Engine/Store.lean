import XyzDB.Engine.Ghost
import XyzDB.Engine.Gravity
import XyzDB.Engine.Lid
import XyzDB.Lib.Prog

/-!
# The store

What a statement works on: the trees that hold the records and the entries that lead to them,
and the catalog, which knows the lobes and what was declared for them. A write gathers its
changes in a batch that the trees take as a whole.

The dictionary tree of the source holds the anchor entries next to the declarations of the
lobes. Here the anchor entries and the names of the fields are two maps of the trees, and the
other declarations are part of the catalog, which a statement changes and makes durable in one
go.
-/

namespace XyzDB.Engine

open Std (ExtTreeMap ExtTreeSet)
open Talk (FilterOp)

inductive XyzError where
  | parse (message : Text)
  | lobeNotFound (name : Text)
  | duplicateAnchor (anchor value lobe existing : Text)
  | recordNotFound (what : Text)
  | storage
  | invalidQuery (message : Text)
  | internal (message : Text)
  | ghostExists (name : Text)
  deriving DecidableEq

inductive QueryResult where
  | ok (lid : Option Lid) (message : Text)
  | batchOk (count : ℕ) (first last : Lid)

structure Trees where
  spatial : ExtTreeMap Key Blob
  /-- Where a record is: 24 bytes, or 10 from an old version. -/
  identity : ExtTreeMap Lid Key
  vectors : ExtTreeMap Key (List UInt8)
  /-- The anchor entries of the dictionary. -/
  dictionary : ExtTreeMap Key Lid
  /-- The names of the fields of a lobe, in the order of their numbers. -/
  fieldNames : ExtTreeMap Key (List Text)

/-- One change of a batch. -/
inductive KeyOp where
  | putSpatial (key : Key) (blob : Blob)
  | removeSpatial (key : Key)
  | putIdentity (lid : Lid) (key : Key)
  | removeIdentity (lid : Lid)
  | putVectors (key : Key) (column : List UInt8)
  | removeVectors (key : Key)
  | putDictionary (entry : Key) (lid : Lid)
  | removeDictionary (entry : Key)
  | putFieldNames (entry : Key) (names : List Text)

namespace Trees

def empty : Trees := ⟨∅, ∅, ∅, ∅, ∅⟩

variable (t : Trees)

def apply : KeyOp → Trees
  | .putSpatial key blob => { t with spatial := t.spatial.insert key blob }
  | .removeSpatial key => { t with spatial := t.spatial.erase key }
  | .putIdentity lid key => { t with identity := t.identity.insert lid key }
  | .removeIdentity lid => { t with identity := t.identity.erase lid }
  | .putVectors key column => { t with vectors := t.vectors.insert key column }
  | .removeVectors key => { t with vectors := t.vectors.erase key }
  | .putDictionary entry lid => { t with dictionary := t.dictionary.insert entry lid }
  | .removeDictionary entry => { t with dictionary := t.dictionary.erase entry }
  | .putFieldNames entry names => { t with fieldNames := t.fieldNames.insert entry names }

/-- A batch, change by change. -/
def commit (ops : List KeyOp) : Trees := ops.foldl apply t

@[simp] lemma commit_nil : t.commit [] = t := rfl

@[simp] lemma commit_cons (op : KeyOp) (ops : List KeyOp) :
    t.commit (op :: ops) = (t.apply op).commit ops := rfl

end Trees

structure LobeRegistry where
  byName : ExtTreeMap Text UInt16
  nextId : UInt16

namespace LobeRegistry

/-- The derived default, which a fresh data directory starts with. -/
def empty : LobeRegistry := ⟨∅, 0⟩

variable (r : LobeRegistry)

def get (name : Text) : Option UInt16 := r.byName[name]?

/-- `get_by_id`: the first name with that number. -/
def getById (id : UInt16) : Option Text :=
  (r.byName.toList.find? fun x => x.2 == id).map Prod.fst

/-- `get_or_create`; the next number wraps around. -/
def getOrCreate (name : Text) : UInt16 × LobeRegistry :=
  match r.byName[name]? with
  | some id => (id, r)
  | none => (r.nextId, ⟨r.byName.insert name r.nextId, r.nextId + 1⟩)

end LobeRegistry

structure VectorSpec where
  field : Text
  dim : Option ℕ
  deriving DecidableEq

/-- The declaration of a lobe's gravity as it is on disk. Before the hash was one of values only,
it had an older format. -/
structure GravitySlot where
  spec : GravitySpec
  preD1 : Bool
  deriving DecidableEq

/-- What is known of the lobes, with the counters that ids are drawn from. -/
structure Catalog where
  lobes : LobeRegistry
  anchorRegistry : ExtTreeMap Text (ExtTreeSet Text)
  gravitySpecs : ExtTreeMap Text GravitySpec
  /-- The durable form of `gravitySpecs`, by the number of the lobe. -/
  gravitySlots : ExtTreeMap UInt16 GravitySlot
  gravityNeedsMigration : Bool
  vectorFields : ExtTreeMap Text VectorSpec
  satelliteSpecs : ExtTreeMap Text Text
  fieldRegistry : LobeFieldRegistry
  /-- `RECORD_SEQ`. -/
  recordSeq : ℕ
  /-- `SEQUENCE`, of the identifiers. -/
  lidSeq : ℕ
  /-- `BOOT_EPOCH`. -/
  bootEpoch : ℕ

namespace Catalog

def empty : Catalog where
  lobes := .empty
  anchorRegistry := ∅
  gravitySpecs := ∅
  gravitySlots := ∅
  gravityNeedsMigration := false
  vectorFields := ∅
  satelliteSpecs := ∅
  fieldRegistry := ⟨∅⟩
  recordSeq := 0
  lidSeq := 0
  bootEpoch := 1

variable (c : Catalog)

def lobeNameForId (id : UInt16) : Text := (c.lobes.getById id).getD []

variable (lobe : Text)

/-- `get_anchors`, in the order of the names. -/
def getAnchors : List Text :=
  match c.anchorRegistry[lobe]? with
  | some fields => fields.toList
  | none => []

def isAnchor (field : Text) : Bool :=
  match c.anchorRegistry[lobe]? with
  | some fields => fields.contains field
  | none => false

def getGravitySpec : Option GravitySpec := c.gravitySpecs[lobe]?

def getVectorSpec : Option VectorSpec := c.vectorFields[lobe]?

/-- The field that a lobe's vectors are searched by. -/
def searchField : Option Text :=
  (c.getVectorSpec lobe).map VectorSpec.field

end Catalog

/-- `RecordCache`, without its budget: the lobes that are cached, and their records. -/
abbrev RecordCache := ExtTreeMap UInt16 (ExtTreeMap Lid Record)

/-- The engine: catalog, trees, caches, ghosts and the locks that are held. -/
structure Db where
  catalog : Catalog
  trees : Trees
  /-- `None` when the server runs without a cache. -/
  recordCache : Option RecordCache
  ghosts : GhostStore
  /-- The anchor shards that are locked. -/
  locks : List ℕ

namespace Db

/-- A fresh data directory. -/
def empty (cached : Bool) (spillLimit : ℕ) : Db :=
  ⟨.empty, .empty, if cached then some ∅ else none, .empty spillLimit, []⟩

variable (db : Db)

/-- `deserialize_hydrated` of the blob at a key, with the dictionary of a lobe. -/
def decode (lobeName : Text) (lobe : UInt16) (key : Key) (blob : Blob) : Option Record :=
  deserializeHydrated db.trees.vectors[key]? blob lobeName (db.catalog.fieldRegistry.getDict lobe)

/-- `prefix_iter` over a lobe. -/
def lobeEntries (lobe : UInt16) : List (Key × Blob) :=
  db.trees.spatial.toList.filter fun x => (beBytes lobe).isPrefixOf x.1

/-- `range_stream`, both ends included. -/
def rangeEntries (range : Key × Key) : List (Key × Blob) :=
  db.trees.spatial.toList.filter fun x => decide (range.1 ≤ x.1) && decide (x.1 ≤ range.2)

def cached (lobe : UInt16) (lid : Lid) : Option Record := do
  let cache ← db.recordCache
  let records ← cache[lobe]?
  records[lid]?

end Db

/-- `dictionary_key`: the field's name is cut to 255 bytes. -/
def dictionaryKey (lobe : UInt16) (field value : Text) : Key :=
  let fieldBytes := utf8 field
  let len := min fieldBytes.length 255
  beBytes lobe ++ UInt8.ofNat len :: (fieldBytes.take len ++ utf8 value)

/-- What the identity tree has for a record, as a key; a key of ten bytes is filled up. -/
def spatialKeyOf (message : Text) (bytes : Key) : Except XyzError Key :=
  if bytes.length = spatialKeySize then .ok bytes
  else if bytes.length = 10 then .ok (bytes ++ List.replicate 14 0)
  else .error (.internal message)

lemma spatialKeyOf_of_length {message : Text} {bytes : Key}
    (h : bytes.length = spatialKeySize) : spatialKeyOf message bytes = .ok bytes := by
  rw [spatialKeyOf, if_pos h]

end XyzDB.Engine
