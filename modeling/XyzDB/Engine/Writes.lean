import XyzDB.Engine.Changes

/-!
# Statements that write

The statements of xyTalk that change the store, and the bulk insert of the binary protocol, as
programs over the store. What was done before an error stays done.

A step of a program is what the source does under one lock or as one batch. The clock and the
counters are read where the source reads them; a statement's `Tick` says what the clock shows.
-/

namespace XyzDB.Engine

open Std (ExtTreeMap ExtTreeSet)
open Talk (FilterExpr FindTarget PutField LinkClause PutStmt PutBatchStmt SetStmt DeleteStmt
  PurgeStmt LinkStmt AnchorStmt AutoAnchorApplyStmt GravityStmt VectorStmt SatelliteStmt LobeStmt
  InCacheStmt)

/-- The clock, in microseconds, during one statement: `now` for the statement, and one reading
for each identifier that it makes. -/
structure Tick where
  now : ℕ
  lidTime : ℕ → ℕ

/-- Text between single quotes. -/
def quoted (s : Text) : Text := "'".toList ++ s ++ "'".toList

/-- `{:?}` of a string, cut out of the print of a text literal. -/
def debugText (p : Platform) (s : Text) : Text := ((p.debugLiteral (.text s)).drop 5).dropLast

section

variable (p : Platform)

/-- `get_or_create`, and the number of the lobe. -/
def getOrCreateLobe (name : Text) : Run UInt16 :=
  .makeWith (fun _ => .lobe name) fun db => (db.catalog.lobes.getOrCreate name).1

/-- `LOBE`. -/
def executeLobe (stmt : LobeStmt) : Run QueryResult := do
  if ← .ask fun db => (db.catalog.lobes.get stmt.name).isSome then
    .fail (.invalidQuery ("Lobe ".toList ++ quoted stmt.name ++ " already exists".toList))
  else
    let id ← getOrCreateLobe stmt.name
    return .ok none ("Lobe ".toList ++ quoted stmt.name ++ " created (id=".toList ++
      displayInt id.toNat ++ [')'])

/-- The number of a lobe that has to be there. -/
def lobeId (name : Text) : Run UInt16 := .query fun db =>
  match db.catalog.lobes.get name with
  | some id => .ok id
  | none => .error (.lobeNotFound name)

/-- `ANCHOR`. The records that are there get no entries. -/
def executeAnchor (stmt : AnchorStmt) : Run QueryResult := do
  let _ ← lobeId stmt.lobe
  if ← .ask fun db => db.catalog.isAnchor stmt.lobe stmt.field then
    .fail (.invalidQuery ("Anchor ".toList ++ quoted stmt.field ++
      " already registered in lobe ".toList ++ quoted stmt.lobe))
  else
    .make (.anchor stmt.lobe stmt.field)
    return .ok none ("Anchor ".toList ++ quoted stmt.field ++ " registered in ".toList ++
      quoted stmt.lobe)

/-- `register_gravity_field`: the first star of a lobe declares its gravity, every later one
changes nothing. -/
def registerGravityField (lobe field : Text) : Run Unit :=
  .act (fun _ => true) (fun db =>
      if (db.catalog.getGravitySpec lobe).isSome then none
      else (db.catalog.lobes.get lobe).map fun id => .gravity lobe id (.raw field))
    fun db =>
      if (db.catalog.getGravitySpec lobe).isSome || (db.catalog.lobes.get lobe).isSome then .ret ()
      else .fail (.lobeNotFound lobe)

/-- The debug print of a spec. -/
def debugGravitySpec : GravitySpec → Text
  | .raw field => "Raw(".toList ++ debugText p field ++ [')']
  | .normalized field transform => "Normalized(".toList ++ debugText p field ++ ", ".toList ++
      (match transform with | .lower => "Lower".toList | .trim => "Trim".toList) ++ [')']
  | .composite fields => "Composite([".toList ++ joinComma (fields.map (debugText p)) ++ "])".toList

/-- `GRAVITY BY`. -/
def executeGravity (stmt : GravityStmt) : Run QueryResult := do
  let spec := convertGravitySpec stmt.spec
  let done : QueryResult := .ok none ("Gravity spec declared for ".toList ++ quoted stmt.lobe)
  let id ← lobeId stmt.lobe
  match ← .ask fun db => db.catalog.getGravitySpec stmt.lobe with
  | some current =>
    if current = spec then return done
    else .fail (.invalidQuery ("lobe ".toList ++ quoted stmt.lobe ++
      " already has a gravity spec (".toList ++ debugGravitySpec p current ++
      ("); GRAVITY BY must be declared before the first write — changing it would re-bucket " ++
        "existing data (re-gravitation, a later phase)").toList))
  | none =>
    .make (.gravity stmt.lobe id spec)
    return done

/-- The debug print of a vector spec. -/
def debugVectorSpec (spec : VectorSpec) : Text :=
  "VectorSpec \x7b field: ".toList ++ debugText p spec.field ++ ", dim: ".toList ++
    (match spec.dim with
      | some d => "Some(".toList ++ displayInt d ++ [')']
      | none => "None".toList) ++ " \x7d".toList

/-- `VECTOR`. -/
def executeVector (stmt : VectorStmt) : Run QueryResult :=
  if stmt.field = [] then
    .fail (.invalidQuery "VECTOR requires a non-empty field name".toList)
  else do
    let spec : VectorSpec := ⟨stmt.field, none⟩
    let done : QueryResult := .ok none ("Vector field ".toList ++ quoted stmt.field ++
      " declared for ".toList ++ quoted stmt.lobe)
    let _ ← lobeId stmt.lobe
    match ← .ask fun db => db.catalog.getVectorSpec stmt.lobe with
    | some current =>
      if current = spec then return done
      else .fail (.invalidQuery ("lobe ".toList ++ quoted stmt.lobe ++
        " already has a vector field (".toList ++ debugVectorSpec p current ++
        ("); VECTOR must be declared before the first write — changing the hoisted field " ++
          "would leave existing V3 records with a stale prefix (a later re-write phase)").toList))
    | none =>
      .make (.vector stmt.lobe spec)
      return done

/-- `SATELLITE BY`, on a lobe without records. -/
def executeSatellite (stmt : SatelliteStmt) : Run QueryResult :=
  if stmt.field = [] then
    .fail (.invalidQuery "SATELLITE BY requires a non-empty field name".toList)
  else do
    let done : QueryResult := .ok none ("Satellite axis ".toList ++ quoted stmt.field ++
      " declared for ".toList ++ quoted stmt.lobe)
    let id ← lobeId stmt.lobe
    match ← .ask fun db => db.catalog.satelliteSpecs[stmt.lobe]? with
    | some current =>
      if current = stmt.field then return done
      else .fail (.invalidQuery ("lobe ".toList ++ quoted stmt.lobe ++
        " already has a satellite axis (SatelliteSpec \x7b field: ".toList ++
        debugText p current ++
        (" \x7d); one axis per lobe — changing it would re-bucket existing data (re-packing, " ++
          "a later phase)").toList))
    | none =>
      if ← .ask fun db => (db.lobeEntries id).isEmpty then
        .make (.satellite stmt.lobe stmt.field)
        return done
      else .fail (.invalidQuery ("lobe ".toList ++ quoted stmt.lobe ++
        (" is not empty; SATELLITE BY must be declared before the first write — declaring it " ++
          "over existing records would leave them unreachable by a bounded (per-satellite) " ++
          "query (re-packing existing data is a later phase)").toList))

end

/-- The fields of a PUT, and among them the starred ones; a record without a type gets the name
of its lobe. -/
def buildFields (p : Platform) (lobe : Text) (given : List PutField) :
    Fields × List (Text × Value) :=
  let fields := given.foldl (fun m f => m.insert f.name (valueOf p f.value)) (∅ : Fields)
  (if given.any (·.name = "_type".toList) then fields
    else fields.insert "_type".toList (.text lobe),
    (given.filter (·.gravity)).map fun f => (f.name, valueOf p f.value))

/-- A vector, if the value is one. -/
def asVector : Option Value → Option (List UInt32)
  | some (.vector v) => some v
  | _ => none

section

variable (p : Platform)

def typeIdFromFields (fields : Fields) : UInt16 :=
  match fields["_type".toList]? with
  | some (.text t) => UInt16.ofNat (p.hash48 t).toNat
  | _ => 0

section

variable (c : Catalog)

section

variable (lobe : Text)

def satelliteSatFor (fields : Fields) : Option UInt16 :=
  c.satelliteSpecs[lobe]?.map fun field =>
    match fields[field]? with
    | some v => p.hash16 (valueToAnchorString p v)
    | none => 0

/-- `compute_record_gravity_hash`: of the first anchor that the record has, or of everything in
it. -/
def computeRecordGravityHash (fields : Fields) : BitVec 48 :=
  match (c.getAnchors lobe).findSome? (fields[·]?) with
  | some v => p.hash48 (valueToAnchorString p v)
  | none => p.hash48 (p.debugFields fields)

def gravityHashFor (fields : Fields) : BitVec 48 :=
  ((c.getGravitySpec lobe).bind (·.computeHash p fields)).getD
    (computeRecordGravityHash p c lobe fields)

/-- The bucket of a new record without LINK: by the spec if it applies, else by the stars, else
by the record itself. -/
def placementHash (spec : Option GravitySpec)
    (stars : List (Text × Value)) (fields : Fields) : BitVec 48 :=
  (spec.bind (·.computeHash p fields)).getD
    (if stars = [] then computeRecordGravityHash p c lobe fields
      else computeGravityHash p (stars.map Prod.snd))

/-- `resolve_gravity_hash_from_link`: a linked record goes to the bucket of its target. -/
def resolveGravityHashFromLink (link : LinkClause) : Run (BitVec 48) := .query fun db =>
  match db.resolveFind p link.target link.filters with
  | .error e => .error e
  | .ok [] => .error (.recordNotFound "LINK target not found".toList)
  | .ok ((_, key) :: _) => .ok (gravityHashFromBytes key)

def multiGravityMarkerError (stars : List (Text × Value)) : XyzError :=
  let names := joinComma (stars.map Prod.fst)
  .invalidQuery ("record marks multiple gravity fields (".toList ++ names ++
    ") in lobe ".toList ++ quoted lobe ++
    " but no composite gravity spec is declared; declare it with \u0060GRAVITY BY (".toList ++
    names ++ ") IN \"".toList ++ lobe ++
    ("\"\u0060 before writing — multiple \u0060*\u0060 markers without a declaration would " ++
      "co-locate by only the first field").toList)

def isComposite : Option GravitySpec → Bool
  | some (.composite _) => true
  | _ => false

/-- Two stars need a composite spec. -/
def checkStars (spec : Option GravitySpec) (stars : List (Text × Value)) : Run Unit :=
  if 2 ≤ stars.length && !isComposite spec then .fail (multiGravityMarkerError lobe stars)
  else return ()

/-- One star declares the gravity of the lobe. -/
def registerStars : List (Text × Value) → Run Unit
  | [(field, _)] => registerGravityField lobe field
  | _ => return ()

/-- `ensure_vector_dim`: the first vector of a lobe fixes the dimension of all. -/
def ensureVectorDim (field : Text) (dim : ℕ) : Run Unit :=
  .act (fun _ => true) (fun db =>
      match db.catalog.getVectorSpec lobe with
      | some ⟨f, none⟩ => (db.catalog.lobes.get lobe).map fun _ => .vector lobe ⟨f, some dim⟩
      | _ => none)
    fun db =>
      match db.catalog.getVectorSpec lobe with
      | some ⟨_, some d⟩ =>
        if d = dim then .ret ()
        else .fail (.invalidQuery ("vector field ".toList ++ quoted field ++ " in lobe ".toList ++
          quoted lobe ++ " has dimension ".toList ++ displayInt dim ++
          ", but the field is ".toList ++ displayInt d ++
          ("-dimensional — a mismatched embedding (wrong model?) would be silently " ++
            "unsearchable, so the write is rejected; use the same model as the rest of the " ++
            "field").toList))
      | some ⟨_, none⟩ =>
        if (db.catalog.lobes.get lobe).isSome then .ret () else .fail (.lobeNotFound lobe)
      | none => .ret ()

/-- The dimension of a record's search vector is checked before it is split off. -/
def checkDim (fields : Fields) (search : Option Text) : Run Unit :=
  match search with
  | some f =>
    match asVector fields[f]? with
    | some v => ensureVectorDim lobe f v.length
    | none => return ()
  | none => return ()

end

/-- The search field, if the record has a vector there. -/
def splitField (fields : Fields) (search : Option Text) : Option Text :=
  search.filter fun f => (asVector fields[f]?).isSome

/-- A record with a vector in the search field is split (V5), every other one is written as it
is (V1). -/
def encodeRecord (lobe : UInt16) (r : Record) (search : Option Text) : Run Encoding :=
  match splitField r.fields search with
  | none => return ⟨serializeRecord r, none, none⟩
  | some f =>
    let split (db : Db) := db.catalog.fieldRegistry.serializeRecordV5Durable p.normSq
      lobe r (some f)
    .makeWith (fun db => .fieldDict (split db).2.2.2)
      fun db => ⟨(split db).1, (split db).2.1, (split db).2.2.1⟩

/-- The key of a record that is placed now. -/
def newKey (lobeName : Text) (lobe : UInt16) (hash : BitVec 48) (fields : Fields)
    (micros : ℕ) : SpatialKey :=
  let typeId := typeIdFromFields p fields
  let time := normalizeTimestamp micros
  match satelliteSatFor p c lobeName fields with
  | some sat => .newWithSat lobe hash sat typeId time c.recordSeq
  | none => .new lobe hash typeId time c.recordSeq

end

def anchorEntries (anchors : List Text) (lobe : UInt16) (fields : Fields) : List AnchorEntry :=
  anchors.filterMap fun name =>
    fields[name]?.map fun v =>
      (name, valueToAnchorString p v, dictionaryKey lobe name (valueToAnchorString p v))

/-- Where a new record goes. -/
structure Placement where
  hash : BitVec 48
  spec : Option GravitySpec
  stars : List (Text × Value)
  linked : Bool

/-- The record number `idx` of a statement. -/
def prepare (t : Tick) (idx : ℕ) (lobeName : Text) (lobe : UInt16) (place : Placement)
    (fields : Fields) (search : Option Text) (entries : List AnchorEntry) : Run Insertion := do
  let lid ← .makeWith (fun _ => .takeLid) fun db =>
    Lid.new lobe (t.lidTime idx) db.catalog.lidSeq db.catalog.bootEpoch
  let key ← .makeWith (fun _ => .takeSeq) fun db =>
    newKey p db.catalog lobeName lobe place.hash fields (t.now + idx)
  let record : Record := ⟨lid, lobeName, fields, t.now, t.now⟩
  checkDim lobeName fields search
  let encoded ← encodeRecord p lobe record search
  return ⟨record, key, encoded, entries, place.spec, place.stars, place.linked⟩

/-- `lock_anchor_shards`: in order, each once. -/
def shards (entries : List Key) : List ℕ :=
  ((entries.map p.anchorShard).insertionSort (· ≤ ·)).dedup

def lockShards (shards : List ℕ) : Run Unit :=
  .each (fun i => .makeWhen (fun db => !db.locks.contains i) (.lock i)) shards

def unlockShards (shards : List ℕ) : Run Unit := .each (fun i => .make (.unlock i)) shards

end

/-! ### Reading a record to change it -/

/-- Where a record is and what it is, if it is there. -/
def Db.locate (db : Db) (message : Text) (lid : Lid) : Except XyzError (Option (Key × Blob)) :=
  match db.trees.identity[lid]? with
  | none => .ok none
  | some bytes =>
    match spatialKeyOf message bytes with
    | .error e => .error e
    | .ok key => .ok (db.trees.spatial[key]?.map fun blob => (key, blob))

/-- `locate`, and `deserialize_hydrated` with the name of a lobe. -/
def Db.fetch (db : Db) (message lobeName : Text) (lid : Lid) :
    Except XyzError (Option (Key × Blob × Record)) :=
  match db.locate message lid with
  | .error e => .error e
  | .ok none => .ok none
  | .ok (some (key, blob)) =>
    match db.decode lobeName (keyLobe key) key blob with
    | some r => .ok (some (key, blob, r))
    | none => .error .storage

/-- Fields over fields. -/
def mergeFields (old new : Fields) : Fields :=
  new.toList.foldl (fun m f => m.insert f.1 f.2) old

section

variable (p : Platform) (t : Tick)

/-- `execute_upsert`: the new fields go into the record where it is. Its bucket, and its entries
in the dictionary, stay. -/
def executeUpsert (lid : Lid) (new : Fields) (lobeName : Text) : Run QueryResult := do
  match ← .query fun db => db.fetch "bad spatial key in identity".toList lobeName lid with
  | none => .fail (.recordNotFound lid.toText)
  | some (key, blob, old) =>
    let record := { old with fields := mergeFields old.fields new, updatedAt := t.now }
    let search ← .ask fun db => db.catalog.searchField lobeName
    checkDim lobeName record.fields search
    let encoded ← encodeRecord p (keyLobe key) record search
    .make (.upsert ⟨key, blob, old, none, record, encoded⟩)
    .make (.notify (keyLobe key) record key (.update old key))
    .make (.cacheRecord (keyLobe key) record)
    return .ok (some lid) ("1 record updated (LID: ".toList ++ lid.toText ++ [')'])

/-- The field that a link is written to. -/
def linkField (relation : Text) : Text := "_link_".toList ++ relation

/-- A record with a link added. -/
def withLink (r : Record) (relation : Text) (target : Lid) : Record :=
  { r with fields := r.fields.insert (linkField relation) (.text target.toText) }

/-- The stored record as it is in the blob: a vector that is stored apart is not in it. -/
def Db.fetchPlain (db : Db) (lid : Lid) : Except XyzError (Key × Blob × Record) :=
  match db.locate "bad spatial key".toList lid with
  | .error e => .error e
  | .ok none => .error (.recordNotFound lid.toText)
  | .ok (some (key, blob)) =>
    match deserializeRecord blob (db.catalog.lobeNameForId (keyLobe key))
        (db.catalog.fieldRegistry.getDict (keyLobe key)) with
    | some r => .ok (key, blob, r)
    | none => .error .storage

/-- `create_link_record`: the record is written with numbers for its names (V2). -/
def createLinkRecord (source : Lid) (link : LinkClause) : Run Unit := do
  match ← .query fun db => db.resolveFind p link.target link.filters with
  | [] => return ()
  | (target, _) :: _ =>
    let (key, blob, old) ← .query fun db => db.fetchPlain source
    let record := withLink old link.relationName target.lid
    let written (db : Db) := db.catalog.fieldRegistry.serializeRecordV2Durable (keyLobe key) record
    let encoded ← .makeWith (fun db => .fieldDict (written db).2.2) fun db =>
      (⟨(written db).1, none, (written db).2.1⟩ : Encoding)
    .make (.link ⟨key, blob, old, none, record, encoded⟩)

section

variable (stmt : PutStmt)

/-- Where the record of a PUT goes: to the bucket of the record it is linked to, or by the gravity
of its lobe. -/
def placePut (fields : Fields) (stars : List (Text × Value)) : Run Placement :=
  match stmt.link with
  | some link => do
    let hash ← resolveGravityHashFromLink p link
    return ⟨hash, none, stars, true⟩
  | none => .ask fun db =>
    let spec := db.catalog.getGravitySpec stmt.lobe
    ⟨placementHash p db.catalog stmt.lobe spec stars fields, spec, stars, false⟩

def linkPut (lid : Lid) : Run Unit :=
  match stmt.link with
  | some link => createLinkRecord p lid link
  | none => return ()

/-- PUT, from where no anchor stands in its way. -/
def putFresh (lobe : UInt16) (fields : Fields) (stars : List (Text × Value))
    (entries : List AnchorEntry) : Run QueryResult := do
  let place ← placePut p stmt fields stars
  let search ← .ask fun db => db.catalog.searchField stmt.lobe
  let x ← prepare p t 0 stmt.lobe lobe place fields search entries
  .make (.insert [x])
  .make (.notify lobe x.record x.bytes .insert)
  linkPut p stmt x.record.lid
  -- the record as it was before the link was added
  .make (.cacheRecord lobe x.record)
  return .ok (some x.record.lid)
    ("1 record inserted (LID: ".toList ++ Lid.toText x.record.lid ++ [')'])

/-- PUT under the locks of its anchors. -/
def putLocked (lobe : UInt16) (fields : Fields) (stars : List (Text × Value))
    (entries : List AnchorEntry) : Run QueryResult := do
  match ← .ask fun db => entries.findSome? fun e =>
      db.trees.dictionary[e.2.2]?.map fun lid => (e, lid) with
  | some ((anchor, value, _), lid) =>
    if stmt.onConflict.isSome then executeUpsert p t lid fields stmt.lobe
    else .fail (.duplicateAnchor anchor value stmt.lobe (Lid.toText lid))
  | none => putFresh p t stmt lobe fields stars entries

def executePut : Run QueryResult := do
  let lobe ← getOrCreateLobe stmt.lobe
  let (fields, stars) := buildFields p stmt.lobe stmt.fields
  let spec ← .ask fun db => db.catalog.getGravitySpec stmt.lobe
  checkStars stmt.lobe spec stars
  registerStars stmt.lobe stars
  let entries ← .ask fun db => anchorEntries p (db.catalog.getAnchors stmt.lobe) lobe fields
  let locks := shards p (entries.map (·.2.2))
  lockShards locks
  Prog.finally_ (putLocked p t stmt lobe fields stars entries) (unlockShards locks)

end

/-- What a batch has gathered so far. -/
structure BatchAcc where
  inserts : List Insertion
  /-- The anchor values that records of the batch took. -/
  claimed : ExtTreeMap Key Lid
  /-- Updates of records that are there, for after the commit. -/
  pending : List (Lid × Fields)

/-- Who has one of the anchor values of a record: an earlier record of the batch, or one in the
dictionary. -/
def batchConflict (claimed dictionary : ExtTreeMap Key Lid) (entries : List AnchorEntry) :
    Option (AnchorEntry × Lid) :=
  entries.findSome? fun e =>
    (match claimed[e.2.2]? with
      | some lid => some lid
      | none => dictionary[e.2.2]?).map fun lid => (e, lid)

/-- What a batch knows from its start: the anchors, the gravity and the search field of the lobe,
and the bucket that LINK names. -/
structure BatchStart where
  anchors : List Text
  spec : Option GravitySpec
  search : Option Text
  linkHash : Option (BitVec 48)

/-- Where a record of a batch goes. -/
def BatchStart.place (start : BatchStart) (c : Catalog) (lobe : Text) (stars : List (Text × Value))
    (fields : Fields) : Placement :=
  match start.linkHash with
  | some hash => ⟨hash, none, stars, true⟩
  | none => ⟨placementHash p c lobe start.spec stars fields, start.spec, stars, false⟩

section

variable (stmt : PutBatchStmt)

/-- One record of a PUT BATCH. -/
def batchOne (lobe : UInt16) (start : BatchStart) (idx : ℕ)
    (given : List PutField) (acc : BatchAcc) : Run BatchAcc := do
  let (fields, stars) := buildFields p stmt.lobe given
  checkStars stmt.lobe start.spec stars
  registerStars stmt.lobe stars
  let entries := anchorEntries p start.anchors lobe fields
  match ← .ask fun db => batchConflict acc.claimed db.trees.dictionary entries with
  | some ((anchor, value, _), lid) =>
    if stmt.onConflict.isSome then return { acc with pending := acc.pending ++ [(lid, fields)] }
    else .fail (.duplicateAnchor anchor value stmt.lobe "batch".toList)
  | none =>
    let place ← .ask fun db => start.place p db.catalog stmt.lobe stars fields
    let x ← prepare p t idx stmt.lobe lobe place fields start.search entries
    return { acc with
      inserts := acc.inserts ++ [x]
      claimed := entries.foldl (fun m e => m.insert e.2.2 x.record.lid) acc.claimed }

/-- The records of a batch, in order. -/
def batchLoop {α γ : Type} (one : ℕ → γ → α → Run α) : ℕ → List γ → α → Run α
  | _, [], acc => return acc
  | idx, given :: rest, acc => do
    let acc ← one idx given acc
    batchLoop one (idx + 1) rest acc

def maxBatchSize : ℕ := 10000

/-- The commit of a batch, and what the ghosts that were there at its start hear of it. -/
def commitBatch (lobe : UInt16) (hasGhosts : Bool) (xs : List Insertion) : Run Unit := do
  .make (.insert xs)
  .each (fun x => .make (.notify lobe x.record x.bytes .insert)) (if hasGhosts then xs else [])

/-- First and last identifier of a batch, zero when nothing was inserted. -/
def batchOk (count : ℕ) (xs : List Insertion) : QueryResult :=
  .batchOk count ((xs.head?.map (·.record.lid)).getD 0) ((xs.getLast?.map (·.record.lid)).getD 0)

/-- The entries whose shards a batch locks: of the first value that a record gives for an
anchor. -/
def batchLockKeys (anchors : List Text) (lobe : UInt16) (records : List (List PutField)) :
    List Key :=
  records.flatMap fun given => anchors.filterMap fun name =>
    (given.find? (·.name = name)).map fun f =>
      dictionaryKey lobe name (valueToAnchorString p (valueOf p f.value))

/-- The bucket of the record that all records of a batch are linked to. -/
def batchLinkHash : Run (Option (BitVec 48)) :=
  match stmt.link with
  | some link => do
    let hash ← resolveGravityHashFromLink p link
    return some hash
  | none => return none

/-- The records of a batch under the locks of their anchors. -/
def putBatchLocked (lobe : UInt16) (hasGhosts : Bool) (anchors : List Text)
    (linkHash : Option (BitVec 48)) : Run QueryResult := do
  let start ← .ask fun db =>
    (⟨anchors, db.catalog.getGravitySpec stmt.lobe, db.catalog.searchField stmt.lobe,
      linkHash⟩ : BatchStart)
  let acc ← batchLoop (batchOne p t stmt lobe start) 0 stmt.records ⟨[], ∅, []⟩
  commitBatch lobe hasGhosts acc.inserts
  .await fun _ => start.search.isNone || acc.pending.isEmpty
  .each (fun x => do let _ ← executeUpsert p t x.1 x.2 stmt.lobe) acc.pending
  return batchOk stmt.records.length acc.inserts

/-- `execute_put_batch`. On a lobe with a search vector the batch still holds the lock of the
field registry when it comes to the updates, which wait for that lock. -/
def executePutBatch : Run QueryResult :=
  if stmt.records = [] then
    return .ok none "0 records inserted (empty batch)".toList
  else if maxBatchSize < stmt.records.length then
    .fail (.invalidQuery ("Batch too large: ".toList ++ displayInt stmt.records.length ++
      " records (max 10000)".toList))
  else do
    let lobe ← getOrCreateLobe stmt.lobe
    let linkHash ← batchLinkHash p stmt
    let anchors ← .ask fun db => db.catalog.getAnchors stmt.lobe
    let hasGhosts ← .ask fun db => !db.ghosts.isEmpty
    let locks := shards p (batchLockKeys p anchors lobe stmt.records)
    lockShards locks
    Prog.finally_ (putBatchLocked p t stmt lobe hasGhosts anchors linkHash) (unlockShards locks)

end

/-! ### Bulk insert -/

/-- A record of the binary protocol. -/
structure BulkRecord where
  fields : Fields
  gravityFields : List (Text × Value)

section

variable (lobeName : Text)

/-- The fields of a bulk record, with a type. -/
def bulkFields (given : BulkRecord) : Fields :=
  if given.fields.contains "_type".toList then given.fields
  else given.fields.insert "_type".toList (.text lobeName)

/-- One record of a bulk insert. Anchors are not looked at. -/
def bulkOne (lobe : UInt16) (spec : Option GravitySpec) (search : Option Text)
    (idx : ℕ) (given : BulkRecord) (acc : List Insertion) : Run (List Insertion) := do
  let fields := bulkFields lobeName given
  checkStars lobeName spec given.gravityFields
  let fallback :=
    if given.gravityFields = [] then p.hash48 (p.debugFields fields)
    else computeGravityHash p (given.gravityFields.map Prod.snd)
  let x ← prepare p t idx lobeName lobe
    ⟨(spec.bind (·.computeHash p fields)).getD fallback, spec, given.gravityFields, false⟩
    fields search []
  return acc ++ [x]

def executeBulkInsert (records : List BulkRecord) : Run QueryResult :=
  if records = [] then return batchOk 0 []
  else do
    let lobe ← getOrCreateLobe lobeName
    let hasGhosts ← .ask fun db => !db.ghosts.isEmpty
    let (spec, search) ← .ask fun db =>
      (db.catalog.getGravitySpec lobeName, db.catalog.searchField lobeName)
    let xs ← batchLoop (bulkOne p t lobeName lobe spec search) 0 records []
    commitBatch lobe hasGhosts xs
    return batchOk records.length xs

/-- The key that a record moves to, with a number of its own, when its bucket or its satellite
changed. -/
def movedKey (key : Key) (fields : Fields) : Run (Option SpatialKey) :=
  let moves (db : Db) : Bool :=
    gravityHashFor p db.catalog lobeName fields ≠ gravityHashFromBytes key ||
      (satelliteSatFor p db.catalog lobeName fields).any (· ≠ satFromBytes key)
  .act (fun _ => true) (fun db => if moves db then some .takeSeq else none) fun db =>
    .ret (if moves db then
      some (newKey p db.catalog lobeName (keyLobe key)
        (gravityHashFor p db.catalog lobeName fields) fields t.now)
      else none)

/-- SET of one record, found by its identifier; a record that is gone is passed over. The result
says whether there was one. -/
def setOne (assignments : Fields) (found : Record) : Run Bool := do
  match ← .query fun db => db.fetch "bad spatial key".toList found.lobeName found.lid with
  | none => return false
  | some (key, blob, old) =>
    let record := { old with fields := mergeFields old.fields assignments, updatedAt := t.now }
    let search ← .ask fun db => db.catalog.searchField found.lobeName
    let encoded ← encodeRecord p (keyLobe key) record search
    let newKey ← movedKey p t found.lobeName key record.fields
    let u : Revision := ⟨key, blob, old, newKey, record, encoded⟩
    .make (.set u)
    .make (.notify (keyLobe key) record u.key (.update old key))
    .make (.cacheRecord (keyLobe key) record)
    return true

/-- SET of records one after the other; how many there were. -/
def setLoop (assignments : Fields) : List Record → Run ℕ
  | [] => return 0
  | r :: rs => do
    let done ← setOne p t assignments r
    let count ← setLoop assignments rs
    return if done then count + 1 else count

/-- The assignments of SET, the last one of a field. -/
def assignedFields (assignments : List (Text × Talk.Literal)) : Fields :=
  assignments.foldl (fun m a => m.insert a.1 (valueOf p a.2)) ∅

/-- The first record and field, in this order, that SET may not write. -/
def assignedAnchor (c : Catalog) (assignments : List (Text × Talk.Literal))
    (records : List Record) : Option (Text × Text) :=
  records.findSome? fun r =>
    (assignments.find? fun a => c.isAnchor r.lobeName a.1).map fun a => (a.1, r.lobeName)

/-- `execute_set`, of a statement with a target. -/
def executeSet (stmt : SetStmt) : Run QueryResult :=
  match stmt.target with
  | none => .fail (.invalidQuery "SET requires a target or pipeline".toList)
  | some target => do
    let found ← .query fun db => db.resolveFindExpr p target stmt.filterExpr
    let records := found.map Prod.fst
    if records.isEmpty then return .ok none "0 records updated".toList
    else
      match ← .ask fun db => assignedAnchor db.catalog stmt.assignments records with
      | some (field, lobe) =>
        .fail (.invalidQuery ("cannot SET anchor field ".toList ++ quoted field ++
          " on lobe ".toList ++ quoted lobe ++ ": anchors are immutable identity".toList))
      | none =>
        let count ← setLoop p t (assignedFields p stmt.assignments) records
        return .ok (records.head?.map Record.lid) (displayInt count ++ " record(s) updated".toList)

/-- The entries that DELETE removes with a record: for the anchors that its lobe has now. -/
def deleteEntries (c : Catalog) (r : Record) : List AnchorEntry :=
  match c.lobes.get r.lobeName with
  | some lobe => anchorEntries p (c.getAnchors r.lobeName) lobe r.fields
  | none => []

def deleteSingleRecord (r : Record) : Run Unit := do
  match ← .query fun db =>
      match db.trees.identity[r.lid]? with
      | none => .ok none
      | some bytes => (spatialKeyOf "bad spatial key".toList bytes).map some with
  | none => return ()
  | some key =>
    let entries ← .ask fun db => deleteEntries p db.catalog r
    .make (.delete ⟨r, key, entries⟩)
    .make (.notify (keyLobe key) r key .delete)
    .make (.uncacheRecord (keyLobe key) r.lid)

/-- `execute_delete`, of a statement with a target. -/
def executeDelete (stmt : DeleteStmt) : Run QueryResult :=
  match stmt.target with
  | none => .fail (.invalidQuery "DELETE requires a target or pipeline".toList)
  | some target => do
    let found ← .query fun db => db.resolveFindExpr p target stmt.filterExpr
    let records := found.map Prod.fst
    if records.isEmpty then return .ok none "0 records deleted".toList
    else
      .each (deleteSingleRecord p) records
      return .ok (records.head?.map Record.lid)
        (displayInt records.length ++ " record(s) deleted".toList)

def executePurge (stmt : PurgeStmt) : Run QueryResult :=
  executeDelete p ⟨some (.lobe stmt.lobe), none⟩

def firstFound (target : FindTarget) (e : Option FilterExpr) (missing : Text) : Run Record :=
  .query fun db =>
    match db.resolveFindExpr p target e with
    | .error e => .error e
    | .ok [] => .error (.recordNotFound missing)
    | .ok ((r, _) :: _) => .ok r

/-- `execute_link`: the record is written as it is (V1). Ghosts and cache are not told. -/
def executeLink (stmt : LinkStmt) : Run QueryResult := do
  let source ← firstFound p stmt.source stmt.sourceFilterExpr "LINK source not found".toList
  let target ← firstFound p stmt.target stmt.targetFilterExpr "LINK target not found".toList
  let (key, blob, old) ← .query fun db => db.fetchPlain source.lid
  let record := { withLink old stmt.relationName target.lid with updatedAt := t.now }
  .make (.link ⟨key, blob, old, none, record, ⟨serializeRecord record, none, none⟩⟩)
  return .ok (some source.lid) ("LINK created: ".toList ++ Lid.toText source.lid ++ " -> ".toList ++
    Lid.toText target.lid ++ " as ".toList ++ quoted stmt.relationName)

/-- The entry of a record for a new anchor. -/
def indexEntry (db : Db) (lobeName : Text) (lobe : UInt16) (field : Text) (blob : Blob) :
    Option (Lid × Text) :=
  (deserializeRecord blob lobeName (db.catalog.fieldRegistry.getDict lobe)).bind fun r =>
    r.fields[field]?.map fun v => (r.lid, valueToAnchorString p v)

/-- One record of the lobe gets its entry, unless its value has one already. The result is how
many entries were made, and the values that had one. -/
def indexOne (lobe : UInt16) (field : Text) (blob : Blob) : Run (ℕ × List Text) := do
  match ← .ask fun db => (indexEntry p db lobeName lobe field blob).map fun e =>
      (e, db.trees.dictionary.contains (dictionaryKey lobe field e.2)) with
  | none => return (0, [])
  | some ((_, value), true) => return (0, [value])
  | some ((lid, value), false) =>
    .make (.index (dictionaryKey lobe field value) lid)
    return (1, [])

end

def indexLoop (one : Blob → Run (ℕ × List Text)) : List (Key × Blob) → Run (ℕ × List Text)
  | [] => return (0, [])
  | x :: xs => do
    let (n, duplicates) ← one x.2
    let (m, more) ← indexLoop one xs
    return (n + m, duplicates ++ more)

/-- An anchor, unless it is one already. -/
def registerAnchor (lobe field : Text) : Run Unit :=
  .act (fun _ => true)
    (fun db => if db.catalog.isAnchor lobe field then none else some (.anchor lobe field))
    fun _ => .ret ()

def executeAutoanchorApply (stmt : AutoAnchorApplyStmt) : Run QueryResult := do
  let lobe ← lobeId stmt.lobe
  registerAnchor stmt.lobe stmt.field
  let (lobeName, entries) ← .ask fun db => (db.catalog.lobeNameForId lobe, db.lobeEntries lobe)
  let (indexed, duplicates) ← indexLoop (indexOne p lobeName lobe stmt.field) entries
  return .ok none ("Anchor ".toList ++ quoted stmt.field ++ " applied in ".toList ++
    quoted stmt.lobe ++ ": ".toList ++ displayInt indexed ++
    match duplicates with
    | [] => " records indexed".toList
    | first :: _ => " indexed, ".toList ++ displayInt duplicates.length ++
      " duplicates found (first: Some(".toList ++ debugText p first ++ "))".toList)

/-! ### The cache -/

/-- The server runs with a cache. -/
def cacheEnabled : Run Unit := .query fun db =>
  match db.recordCache with
  | some _ => .ok ()
  | none => .error (.invalidQuery
      "RecordCache not enabled. Start server with --record-cache-size N".toList)

/-- `INCACHE`; the records are cached without the vectors that are stored apart. -/
def executeIncache (stmt : InCacheStmt) : Run QueryResult := do
  cacheEnabled
  let lobe ← lobeId stmt.lobe
  let records ← .ask fun db => (db.lobeEntries lobe).filterMap fun x =>
    (deserializeRecord x.2 (db.catalog.lobeNameForId lobe)
      (db.catalog.fieldRegistry.getDict lobe)).filter (recordMatchesOptExpr p · stmt.filterExpr)
  .make (.cacheLobe lobe records)
  return .ok none ("INCACHE: ".toList ++ displayInt records.length ++
    " records loaded for ".toList ++ quoted stmt.lobe)

/-- `OUTCACHE`. -/
def executeOutcache (lobeName : Text) : Run QueryResult := do
  cacheEnabled
  let lobe ← lobeId lobeName
  .make (.uncacheLobe lobe)
  return .ok none ("OUTCACHE: ".toList ++ quoted lobeName ++ " evicted".toList)

/-- `create`: a scan of the lobe as it is at its start, the entries, and at last the ghost, which
no writer sees before. -/
def executeCreateGhost (lobeName : Text) (spec : GhostSpec) : Run QueryResult := do
  let lobe ← lobeId lobeName
  if ← .ask fun db => db.ghosts.containsGhost spec.name then .fail (.ghostExists spec.name)
  else
    let ghostId ← .makeWith (fun _ => .allocGhost) fun db => db.ghosts.nextId
    let records ← .ask fun db => buildRecords p spec lobeName
      (db.catalog.fieldRegistry.getDict lobe) (db.lobeEntries lobe)
    let g ← .makeWith (fun _ => .ingestGhost ghostId spec records) fun db =>
      db.ghosts.built p ghostId lobe spec records
    .make (.insertGhost g)
    return .ok none ("Ghost ".toList ++ quoted spec.name ++ " created: ".toList ++
      displayInt records.length ++ " index entries from ".toList ++ quoted lobeName ++
      " ordered by ".toList ++ quoted spec.orderByField ++
      if spec.sortInverted then " DESC".toList else " ASC".toList)

inductive Command where
  | lobe (stmt : LobeStmt)
  | anchor (stmt : AnchorStmt)
  | autoAnchorApply (stmt : AutoAnchorApplyStmt)
  | gravity (stmt : GravityStmt)
  | vector (stmt : VectorStmt)
  | satellite (stmt : SatelliteStmt)
  | put (stmt : PutStmt)
  | putBatch (stmt : PutBatchStmt)
  /-- A request of the binary protocol. -/
  | bulkInsert (lobe : Text) (records : List BulkRecord)
  | set (stmt : SetStmt)
  | delete (stmt : DeleteStmt)
  | purge (stmt : PurgeStmt)
  | link (stmt : LinkStmt)
  | inCache (stmt : InCacheStmt)
  | outCache (lobe : Text)
  | createGhost (lobe : Text) (spec : GhostSpec)

/-- `stmt_touches_gravity_data`. -/
def Command.touchesGravityData : Command → Bool
  | .put _ | .putBatch _ | .set _ | .delete _ | .purge _ | .link _ => true
  | _ => false

def dispatch : Command → Run QueryResult
  | .lobe stmt => executeLobe stmt
  | .anchor stmt => executeAnchor stmt
  | .autoAnchorApply stmt => executeAutoanchorApply p stmt
  | .gravity stmt => executeGravity p stmt
  | .vector stmt => executeVector p stmt
  | .satellite stmt => executeSatellite p stmt
  | .put stmt => executePut p t stmt
  | .putBatch stmt => executePutBatch p t stmt
  | .bulkInsert lobe records => executeBulkInsert p t lobe records
  | .set stmt => executeSet p t stmt
  | .delete stmt => executeDelete p stmt
  | .purge stmt => executePurge p stmt
  | .link stmt => executeLink p t stmt
  | .inCache stmt => executeIncache p stmt
  | .outCache lobe => executeOutcache lobe
  | .createGhost lobe spec => executeCreateGhost p lobe spec

/-- `execute`: while old gravity data is there, what reads or writes buckets is refused. -/
def execute (command : Command) : Run QueryResult := do
  if ← .ask fun db => db.catalog.gravityNeedsMigration && command.touchesGravityData then
    .fail (.invalidQuery
      ("database holds pre-0.8 (name+value) gravity data; run \u0060migrate\u0060 before " ++
        "reads/writes — D1 rehashes gravity keys to the value-only convention").toList)
  else dispatch p t command

end

/-- A statement and the clock while it runs. -/
structure DbLabel where
  tick : Tick
  command : Command

section

variable (p : Platform)

/-- The store after a statement that runs alone; none when the statement never returns. -/
def Db.next (db : Db) (l : DbLabel) : Option Db :=
  match (execute p l.tick l.command).run (Db.apply p) db with
  | (.blocked, _) => none
  | (_, db') => some db'

/-- The changes that a statement makes, each with the store just before it. -/
def changes (db : Db) (l : DbLabel) : List (Db × Change) :=
  (execute p l.tick l.command).trace (Db.apply p) db

/-- Sequential histories of statements on a fresh data directory. SET and DELETE stand alone in
them: behind a pipe, on the records of the step before, they are not among the commands. -/
def dbSys (cached : Bool) (spillLimit : ℕ) : TransSys Db DbLabel where
  init := .empty cached spillLimit
  next := Db.next p

end

/-- A statement when the clock shows `now`. -/
def clocked (now : ℕ) (command : Command) : DbLabel := ⟨⟨now, fun i => now + i⟩, command⟩

/-- A field of a PUT, without a star. -/
def unstarred (name : String) (value : Talk.Literal) : PutField := ⟨name.toList, value, false⟩

/-- `PUT \x7b ... \x7d IN lobe`. -/
def putIn (lobe : String) (fields : List PutField) : Command :=
  .put ⟨fields, lobe.toList, none, none⟩

/-- `field = value`. -/
def equals (field : String) (value : Talk.Literal) : FilterExpr :=
  .condition ⟨field.toList, .eq, value⟩

end XyzDB.Engine
