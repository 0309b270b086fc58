import XyzDB.Engine.AggregateState
import XyzDB.Engine.SpatialKey

/-!
# Ghosts

A ghost is a secondary index of a lobe. It has an entry for each record that passes its filter
(for each group of them, under a GROUP BY), under a key that sorts by the ghost's order field,
and may keep aggregates. `create` builds a ghost from the lobe; from then on every write tells
the ghosts of its lobe what it did, through `notify_write`.

The ghosts keyspace and the rollups in the dictionary keyspace are maps here. A rollup key holds
the chain of deltas appended to it, newest first, which a read folds.
-/

namespace XyzDB.Engine

open Std (ExtTreeMap)
open Talk (FilterExpr)

/-- A text with its zeros escaped and a double zero behind it. -/
def escapeText (bytes : List UInt8) : List UInt8 :=
  bytes.flatMap (fun b => if b = 0 then [0x00, 0xFF] else [b]) ++ [0x00, 0x00]

/-- `encode_value_ordered`: a byte for the type, and bytes that sort as the values do. -/
def encodeValueOrdered : Option Value → List UInt8
  | none | some .null => [0x00]
  | some (.int i) => 0x01 :: toBE 8 ((i + 2 ^ 63) % 2 ^ 64).toNat
  | some (.float f) =>
    0x02 :: toBE 8 (if 2 ^ 63 ≤ f.toNat then 2 ^ 64 - 1 - f.toNat else f.toNat + 2 ^ 63)
  | some (.text s) => 0x03 :: escapeText (utf8 s)
  | some _ => [0xFF]

/-- `encode_sort_key`. Inverted bytes sort in the opposite order. -/
def encodeSortKey (ghostId : UInt16) (sortValue : Option Value) (inverted : Bool)
    (tiebreak : List UInt8) : Key :=
  let bytes := encodeValueOrdered sortValue ++ tiebreak
  beBytes ghostId ++ (if inverted then bytes.map (~~~ ·) else bytes)

/-- `Residency`: the states of the groups in memory, or on disk. -/
inductive Residency where
  | inRam (groups : ExtTreeMap Text AggregateState)
  | spilled

/-- The aggregates of a ghost. `groupFields` is empty when there is no GROUP BY. -/
structure AggregateContent where
  aggregateSpecs : List Metric
  globalAggregates : AggregateState
  groupFields : List Text
  residency : Residency

structure GhostMeta where
  name : Text
  ghostId : UInt16
  lobeId : UInt16
  filter : FilterExpr
  orderByField : Text
  sortInverted : Bool
  paused : Bool
  indexCount : ℕ
  aggregate : Option AggregateContent
  projection : List Text

namespace GhostMeta

/-- `group_fields`: none without aggregates. -/
def groupFields (g : GhostMeta) : List Text :=
  match g.aggregate with
  | some agg => agg.groupFields
  | none => []

end GhostMeta

def getSortValue (r : Record) (orderBy : Text) : Option Value :=
  if orderBy = [] then none else r.fields[orderBy]?

section

variable (p : Platform)

/-- `ghost_entry_tiebreak`: the record's key, or the key of its group. -/
def ghostEntryTiebreak (groupFields : List Text) (fields : Fields) (key : Key) : List UInt8 :=
  if groupFields = [] then key else utf8 (extractGroupKey p fields groupFields)

/-- `encode_ghost_value`: the record's key and, under EMBED, the fields that are embedded. The
lengths are cut to the width of their prefix. -/
def encodeGhostValue (key : Key) (r : Record) (projection : List Text) : List UInt8 :=
  if projection = [] then key
  else
    let projected := projection.filterMap fun f => r.fields[f]?.map fun v => (f, v)
    key ++ UInt8.ofNat projected.length :: projected.flatMap fun x =>
      UInt8.ofNat (utf8 x.1).length :: (utf8 x.1 ++
        (toBE 2 (p.postcard x.2).length ++ p.postcard x.2))

namespace GhostMeta

variable (g : GhostMeta)

/-- Whether a record is in the ghost. -/
def admits (r : Record) : Bool := matchesCoreExpr p r (toCoreExpr p g.filter)

/-- The key of a record's entry. -/
def entryKey (r : Record) (key : Key) : Key :=
  encodeSortKey g.ghostId (getSortValue r g.orderByField) g.sortInverted
    (ghostEntryTiebreak p g.groupFields r.fields key)

/-- The value of a record's entry. -/
def entryValue (r : Record) (key : Key) : List UInt8 :=
  encodeGhostValue p key r g.projection

end GhostMeta

end

abbrev Rollups := ExtTreeMap Key (List RollupDelta)

/-- `rollup_key`: the key of a group is cut to 65535 bytes. -/
def rollupKey (ghostId : UInt16) (groupKey : Text) : Key :=
  let bytes := utf8 groupKey
  0xFF :: 0xF9 :: (beBytes ghostId ++
    (toBE 2 (min bytes.length 65535) ++ bytes.take (min bytes.length 65535)))

/-- `rollup_append`: one more delta, in front of those that are there. -/
def rollupAppend (ghostId : UInt16) (rollups : Rollups) (groupKey : Text) (delta : RollupDelta) :
    Rollups :=
  rollups.insert (rollupKey ghostId groupKey)
    (delta :: (rollups[rollupKey ghostId groupKey]?).getD [])

/-- `RollupSpiller::spill`, of the states in the order of their keys. -/
def spill (ghostId : UInt16) (groups : ExtTreeMap Text AggregateState) (rollups : Rollups) :
    Rollups :=
  groups.toList.foldl
    (fun rollups x => rollupAppend ghostId rollups x.1 (.fromAggregateState x.2)) rollups

section

variable (p : Platform) (limit : ℕ) (ghostId : UInt16) (specs : List Metric)
  (groupFields : List Text)

variable (res : Residency)

variable (rollups : Rollups)

/-- The groups take a record in. Past the limit the states of all groups go to disk. -/
def groupInsert (r : Record) : Residency × Rollups :=
  let gk := extractGroupKey p r.fields groupFields
  match res with
  | .spilled => (.spilled, rollupAppend ghostId rollups gk (.forRecord p r specs 1))
  | .inRam groups =>
    let groups := groups.insert gk ((groups[gk]?.getD .empty).add p r specs)
    if limit < groups.size then (.spilled, spill ghostId groups rollups)
    else (.inRam groups, rollups)

/-- The groups give a record up. A group without records is dropped. -/
def groupRemove (r : Record) : Residency × Rollups :=
  let gk := extractGroupKey p r.fields groupFields
  match res with
  | .spilled => (.spilled, rollupAppend ghostId rollups gk (.forRecord p r specs (-1)))
  | .inRam groups =>
    match groups[gk]? with
    | none => (.inRam groups, rollups)
    | some state =>
      let state := state.subtract p r specs
      if state.count = 0 then (.inRam (groups.erase gk), rollups)
      else (.inRam (groups.insert gk state), rollups)

/-- A record of the groups changes. Within one group, a group that is not there stays away. -/
def groupUpdate (old new : Record) : Residency × Rollups :=
  let oldGk := extractGroupKey p old.fields groupFields
  let newGk := extractGroupKey p new.fields groupFields
  match res with
  | .spilled =>
    if oldGk = newGk then
      (.spilled, rollupAppend ghostId rollups oldGk
        ((RollupDelta.forRecord p new specs 1).merge p (.forRecord p old specs (-1))))
    else
      (.spilled, rollupAppend ghostId
        (rollupAppend ghostId rollups oldGk (.forRecord p old specs (-1))) newGk
        (.forRecord p new specs 1))
  | .inRam groups =>
    if oldGk = newGk then
      match groups[oldGk]? with
      | none => (.inRam groups, rollups)
      | some state =>
        (.inRam (groups.insert oldGk ((state.subtract p old specs).add p new specs)), rollups)
    else
      let groups :=
        match groups[oldGk]? with
        | none => groups
        | some state =>
          let state := state.subtract p old specs
          if state.count = 0 then groups.erase oldGk else groups.insert oldGk state
      (.inRam (groups.insert newGk ((groups[newGk]?.getD .empty).add p new specs)), rollups)

end

/-- The keyspaces that ghosts live in. -/
structure GhostDisk where
  entries : ExtTreeMap Key (List UInt8)
  rollups : Rollups

inductive WriteType where
  | insert
  | update (oldRecord : Record) (oldKey : Key)
  | delete

section

variable (p : Platform) (limit : ℕ) (skipAggregates : Bool)

/-- The aggregates of a ghost, after `f` on the whole and `g` on the groups. -/
def AggregateContent.change (agg : AggregateContent) (rollups : Rollups)
    (f : AggregateState → AggregateState)
    (g : Residency → Rollups → Residency × Rollups) : AggregateContent × Rollups :=
  if agg.groupFields = [] then
    ({ agg with globalAggregates := f agg.globalAggregates }, rollups)
  else
    let (residency, rollups) := g agg.residency rollups
    ({ agg with globalAggregates := f agg.globalAggregates, residency := residency }, rollups)

/-- `change`, of a ghost that may have no aggregates; in BULKMODE they are left alone. -/
def GhostMeta.changeAggregates (g : GhostMeta) (rollups : Rollups)
    (change : AggregateContent → AggregateContent × Rollups) : GhostMeta × Rollups :=
  match g.aggregate with
  | some agg =>
    if skipAggregates then (g, rollups)
    else ({ g with aggregate := some (change agg).1 }, (change agg).2)
  | none => (g, rollups)

def ghostInsertInner (disk : GhostDisk) (g : GhostMeta) (r : Record) (key : Key) :
    GhostMeta × GhostDisk :=
  let entries := disk.entries.insert (g.entryKey p r key) (g.entryValue p r key)
  let (g, rollups) :=
    { g with indexCount := g.indexCount + 1 }.changeAggregates skipAggregates disk.rollups
      fun agg => agg.change disk.rollups (·.add p r agg.aggregateSpecs)
        (groupInsert p limit g.ghostId agg.aggregateSpecs agg.groupFields · · r)
  (g, ⟨entries, rollups⟩)

def ghostRemoveInner (disk : GhostDisk) (g : GhostMeta) (r : Record) (key : Key) :
    GhostMeta × GhostDisk :=
  let entries := disk.entries.erase (g.entryKey p r key)
  let (g, rollups) :=
    { g with indexCount := g.indexCount - 1 }.changeAggregates skipAggregates disk.rollups
      fun agg => agg.change disk.rollups (·.subtract p r agg.aggregateSpecs)
        (groupRemove p g.ghostId agg.aggregateSpecs agg.groupFields · · r)
  (g, ⟨entries, rollups⟩)

/-- `ghost_update_inner`: the new entry comes before the old one goes. -/
def ghostUpdateInner (disk : GhostDisk) (g : GhostMeta) (old new : Record) (oldKey newKey : Key) :
    GhostMeta × GhostDisk :=
  let inserted := disk.entries.insert (g.entryKey p new newKey) (g.entryValue p new newKey)
  let entries :=
    if g.entryKey p new newKey ≠ g.entryKey p old oldKey then
      inserted.erase (g.entryKey p old oldKey)
    else inserted
  let (g, rollups) := g.changeAggregates skipAggregates disk.rollups
      fun agg => agg.change disk.rollups
        (fun s => (s.subtract p old agg.aggregateSpecs).add p new agg.aggregateSpecs)
        (groupUpdate p g.ghostId agg.aggregateSpecs agg.groupFields · · old new)
  (g, ⟨entries, rollups⟩)

/-- What one ghost does about a write. -/
def GhostMeta.notify (g : GhostMeta) (disk : GhostDisk) (r : Record) (key : Key) :
    WriteType → GhostMeta × GhostDisk
  | .insert =>
    if g.admits p r then ghostInsertInner p limit skipAggregates disk g r key else (g, disk)
  | .delete => if g.admits p r then ghostRemoveInner p skipAggregates disk g r key else (g, disk)
  | .update old oldKey =>
    match g.admits p old, g.admits p r with
    | false, false => (g, disk)
    | false, true => ghostInsertInner p limit skipAggregates disk g r key
    | true, false => ghostRemoveInner p skipAggregates disk g old oldKey
    | true, true => ghostUpdateInner p skipAggregates disk g old r oldKey key

/-- One turn of the loop over the ghosts of a lobe; a paused ghost is passed over. -/
def notifyOne (r : Record) (key : Key) (w : WriteType) (acc : ExtTreeMap Text GhostMeta × GhostDisk)
    (g : GhostMeta) : ExtTreeMap Text GhostMeta × GhostDisk :=
  if g.paused then acc
  else
    let (g', disk) := g.notify p limit skipAggregates acc.2 r key w
    (acc.1.insert g.name g', disk)

end

/-- `GhostLobeManager`, with its keyspaces. -/
structure GhostStore where
  shards : ExtTreeMap UInt16 (ExtTreeMap Text GhostMeta)
  disk : GhostDisk
  nextId : UInt16
  bulkMode : Bool
  /-- `group_spill_limit()`. -/
  spillLimit : ℕ

namespace GhostStore

/-- No ghosts yet. -/
def empty (spillLimit : ℕ) : GhostStore := ⟨∅, ⟨∅, ∅⟩, 1, false, spillLimit⟩

def isEmpty (gs : GhostStore) : Bool := gs.shards.toList.all fun shard => shard.2.isEmpty

def notifyWrite (p : Platform) (gs : GhostStore) (lobe : UInt16) (r : Record) (key : Key)
    (w : WriteType) : GhostStore :=
  match gs.shards[lobe]? with
  | none => gs
  | some shard =>
    let (shard, disk) := (shard.toList.map Prod.snd).foldl
      (notifyOne p gs.spillLimit gs.bulkMode r key w) (shard, gs.disk)
    { gs with shards := gs.shards.insert lobe shard, disk := disk }

end GhostStore

/-- What CREATE GHOST asks for. -/
structure GhostSpec where
  name : Text
  filter : FilterExpr
  orderByField : Text
  sortInverted : Bool
  aggregateSpecs : List Metric
  groupFields : List Text
  projection : List Text

namespace GhostSpec

/-- The ghost as it is before its first record. -/
def initial (spec : GhostSpec) (ghostId lobeId : UInt16) : GhostMeta where
  name := spec.name
  ghostId := ghostId
  lobeId := lobeId
  filter := spec.filter
  orderByField := spec.orderByField
  sortInverted := spec.sortInverted
  paused := false
  indexCount := 0
  aggregate :=
    if spec.aggregateSpecs = [] then none
    else some ⟨spec.aggregateSpecs, .empty, spec.groupFields, .inRam ∅⟩
  projection := spec.projection

end GhostSpec

section

variable (p : Platform)

/-- The entries that `create` makes: the key order of the records, the later entry of a group in
the place of the earlier. The tiebreak follows the fields that were asked for, also where the
ghost has no aggregates and so does not keep them. -/
def buildEntry (spec : GhostSpec) (ghostId : UInt16) (entries : ExtTreeMap Key (List UInt8))
    (x : Record × Key) : ExtTreeMap Key (List UInt8) :=
  entries.insert (encodeSortKey ghostId (getSortValue x.1 spec.orderByField) spec.sortInverted
      (ghostEntryTiebreak p spec.groupFields x.1.fields x.2))
    (encodeGhostValue p x.2 x.1 spec.projection)

/-- The records that a build sees: those that decode, without the vectors that are stored apart,
and pass the filter. -/
def buildRecords (spec : GhostSpec) (sourceLobe : Text) (dict : Option FieldDict)
    (lobe : List (Key × Blob)) : List (Record × Key) :=
  lobe.filterMap fun x =>
    match deserializeRecord x.2 sourceLobe dict with
    | some r => if matchesCoreExpr p r (toCoreExpr p spec.filter) then some (r, x.1) else none
    | none => none

/-- The group states of a build: the map in memory, whether it was ever spilled, and the
rollups. -/
def buildGroup (limit : ℕ) (ghostId : UInt16) (spec : GhostSpec)
    (acc : ExtTreeMap Text AggregateState × Bool × Rollups) (x : Record × Key) :
    ExtTreeMap Text AggregateState × Bool × Rollups :=
  let (groups, spilled, rollups) := acc
  let gk := extractGroupKey p x.1.fields spec.groupFields
  let groups := groups.insert gk ((groups[gk]?.getD .empty).add p x.1 spec.aggregateSpecs)
  if limit < groups.size then (∅, true, spill ghostId groups rollups)
  else (groups, spilled, rollups)

/-- The aggregates of a build. A ghost that spilled once is on disk altogether. -/
def buildAggregate (limit : ℕ) (ghostId : UInt16) (spec : GhostSpec) (records : List (Record × Key))
    (rollups : Rollups) : Option AggregateContent × Rollups :=
  if spec.aggregateSpecs = [] then (none, rollups)
  else
    let total := records.foldl (fun s x => s.add p x.1 spec.aggregateSpecs) AggregateState.empty
    if spec.groupFields = [] then
      (some ⟨spec.aggregateSpecs, total, [], .inRam ∅⟩, rollups)
    else
      let (groups, spilled, rollups) :=
        records.foldl (buildGroup p limit ghostId spec) (∅, false, rollups)
      if spilled then
        (some ⟨spec.aggregateSpecs, total, spec.groupFields, .spilled⟩,
          spill ghostId groups rollups)
      else (some ⟨spec.aggregateSpecs, total, spec.groupFields, .inRam groups⟩, rollups)

namespace GhostStore

variable (gs : GhostStore)

def containsGhost (name : Text) : Bool :=
  gs.shards.toList.any fun shard => shard.2.contains name

/-- `alloc_id`; the next number wraps around. -/
def allocId : GhostStore := { gs with nextId := gs.nextId + 1 }

/-- The entries and rollups of a new ghost go to disk. -/
def ingest (ghostId : UInt16) (spec : GhostSpec) (records : List (Record × Key)) : GhostStore :=
  { gs with
    disk := ⟨records.foldl (buildEntry p spec ghostId) gs.disk.entries,
      (buildAggregate p gs.spillLimit ghostId spec records gs.disk.rollups).2⟩ }

/-- The ghost that is built from some records. -/
def built (ghostId lobeId : UInt16) (spec : GhostSpec)
    (records : List (Record × Key)) : GhostMeta :=
  { spec.initial ghostId lobeId with
    aggregate := (buildAggregate p gs.spillLimit ghostId spec records gs.disk.rollups).1
    indexCount := records.length }

/-- `insert_ghost`: from now on the writers of the lobe see the ghost. -/
def insertGhost (g : GhostMeta) : GhostStore :=
  { gs with shards := gs.shards.insert g.lobeId ((gs.shards[g.lobeId]?.getD ∅).insert g.name g) }

end GhostStore

end

end XyzDB.Engine
