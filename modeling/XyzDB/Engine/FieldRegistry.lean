import XyzDB.Engine.RecordCodec
import XyzDB.Lib.TransSys

/-!
# The field registry and its writers

`LobeFieldRegistry` keeps the field dictionary of every lobe in memory. A writer takes the
registry's lock, turns its records into blobs, and lets go of the lock; when the dictionary
grew it got the new list of names as a dictionary entry, which it commits later in one batch
with the records. At boot the registry is loaded from these entries.

The writers are a transition system: any number of them between the lock and the commit,
commits in any order, each of which may fail, and a crash at any point. The committed
keyspaces survive a crash; every commit is atomic. Each stored blob stands together with the
record it was written from and the names its numbers were taken from; no step reads these two.
-/

namespace XyzDB.Engine

open Std (ExtTreeMap)

abbrev Key := List UInt8

structure LobeFieldRegistry where
  dicts : ExtTreeMap UInt16 FieldDict

/-- `u16::to_be_bytes`. -/
def beBytes (n : UInt16) : List UInt8 := [UInt8.ofNat (n.toNat / 256), UInt8.ofNat (n.toNat % 256)]

def fromBeBytes (hi lo : UInt8) : UInt16 := UInt16.ofNat (hi.toNat * 256 + lo.toNat)

lemma beBytes_inj {a b : UInt16} (h : beBytes a = beBytes b) : a = b := by
  simp only [beBytes, List.cons.injEq, and_true] at h
  have hhi := congrArg UInt8.toNat h.1
  have hlo := congrArg UInt8.toNat h.2
  rw [UInt8.toNat_ofNat', UInt8.toNat_ofNat'] at hhi hlo
  have ha := a.toNat_lt
  have hb := b.toNat_lt
  exact UInt16.toNat_inj.mp (by omega)

lemma fromBeBytes_beBytes (n : UInt16) :
    fromBeBytes (UInt8.ofNat (n.toNat / 256)) (UInt8.ofNat (n.toNat % 256)) = n := by
  have hn := n.toNat_lt
  refine UInt16.toNat_inj.mp ?_
  rw [fromBeBytes, UInt16.toNat_ofNat', UInt8.toNat_ofNat', UInt8.toNat_ofNat']
  omega

/-- `[FIELD_REGISTRY][lobe_id:2]`. -/
def registryKey (lobe : UInt16) : Key := 0xFF :: 0xFB :: beBytes lobe

namespace LobeFieldRegistry

section

variable (reg : LobeFieldRegistry)

variable (lobe : UInt16)

def getDict : Option FieldDict := reg.dicts[lobe]?

/-- `dicts.entry(lobe_id).or_default()`. -/
def dictOrDefault : FieldDict :=
  (reg.getDict lobe).getD .new

/-- The entry for a dictionary that grew: the list of all names. -/
def grownEntry (before after : FieldDict) : Option (Key × List Text) :=
  if before.idToName.length < after.idToName.length then some (registryKey lobe, after.idToName)
  else none

def serializeRecordV2Durable (r : Record) : Blob × Option (Key × List Text) × LobeFieldRegistry :=
  let dict := reg.dictOrDefault lobe
  let (blob, dict') := serializeRecordV2 r dict
  (blob, grownEntry lobe dict dict', ⟨reg.dicts.insert lobe dict'⟩)

end

def serializeRecordV5Durable (normSq : List UInt32 → UInt64) (reg : LobeFieldRegistry)
    (lobe : UInt16) (r : Record) (search : Option Text) :
    Blob × Option (List UInt8) × Option (Key × List Text) × LobeFieldRegistry :=
  let dict := reg.dictOrDefault lobe
  let (blob, column, dict') := serializeRecordV5 normSq r dict search
  (blob, column, grownEntry lobe dict dict', ⟨reg.dicts.insert lobe dict'⟩)

/-- One entry at boot: a short key and an empty list are passed over. -/
def loadEntry (entry : Key × List Text) : Option (UInt16 × FieldDict) :=
  match entry.1 with
  | 0xFF :: 0xFB :: hi :: lo :: _ =>
    if entry.2.isEmpty then none else some (fromBeBytes hi lo, .fromNames entry.2)
  | _ => none

/-- `load_from_disk`, over the dictionary keyspace. -/
def loadFromDisk (dictionary : ExtTreeMap Key (List Text)) : LobeFieldRegistry :=
  ⟨ExtTreeMap.ofList (dictionary.toList.filterMap loadEntry)⟩

end LobeFieldRegistry

/-- PUT, PUT BATCH and SET split off the lobe's vector where the record has one and write the
record plainly otherwise; `movedFrom` is the old key of a record that SET moves. LINK adds an
edge and always writes numbers. -/
inductive WriteForm where
  | put (movedFrom : Option Key) (search : Option Text)
  | link (relation target : Text)

/-- One record of a statement. -/
structure Write where
  key : Key
  given : Record
  form : WriteForm

namespace Write

/-- The old key, when the record moves. -/
def movedFrom (w : Write) : Option Key :=
  match w.form with
  | .put movedFrom _ => movedFrom
  | .link _ _ => none

/-- The record that is written. -/
def record (w : Write) : Record :=
  match w.form with
  | .put _ _ => w.given
  | .link relation target =>
    { w.given with
      fields := w.given.fields.insert ("_link_".toList ++ relation) (.text target) }

/-- The name of the vector that is split off. -/
def splits (w : Write) : Option Text :=
  match w.form with
  | .put _ (some search) =>
    match w.record.fields[search]? with
    | some (.vector _) => some search
    | _ => none
  | _ => none

/-- The names that the write asks the dictionary for. -/
def asked (w : Write) : List Text :=
  match w.form with
  | .link _ _ => w.record.names
  | .put _ _ =>
    match w.splits with
    | some search => w.record.namesV5 search
    | none => []

end Write

/-- A blob in the spatial keyspace, with the record and the names it was written from. -/
structure Stored where
  blob : Blob
  record : Record
  names : List Text

inductive BatchOp where
  | putSpatial (key : Key) (stored : Stored)
  | removeSpatial (key : Key)
  | putVectors (key : Key) (column : List UInt8)
  | removeVectors (key : Key)
  | putDictionary (key : Key) (names : List Text)

def entryOps : Option (Key × List Text) → List BatchOp
  | none => []
  | some (key, names) => [.putDictionary key names]

/-- The batch of one record. -/
def putOps (w : Write) (x : Stored) (column : Option (List UInt8))
    (entry : Option (Key × List Text)) : List BatchOp :=
  w.movedFrom.toList.map .removeSpatial ++ .putSpatial w.key x ::
    (w.movedFrom.toList.map .removeVectors ++ (column.toList.map (.putVectors w.key) ++
      entryOps entry))

/-- What a write puts into the batch, under the lock. -/
def encodeWrite (normSq : List UInt32 → UInt64) (lobe : UInt16) (w : Write)
    (reg : LobeFieldRegistry) : List BatchOp × LobeFieldRegistry :=
  match w.form with
  | .link _ _ =>
    let (blob, entry, reg') := reg.serializeRecordV2Durable lobe w.record
    let names := (reg'.dictOrDefault lobe).idToName
    (putOps w ⟨blob, w.record, names⟩ none entry, reg')
  | .put _ _ =>
    match w.splits with
    | some search =>
      let (blob, column, entry, reg') :=
        reg.serializeRecordV5Durable normSq lobe w.record (some search)
      let names := (reg'.dictOrDefault lobe).idToName
      (putOps w ⟨blob, w.record, names⟩ column entry, reg')
    | none => (putOps w ⟨serializeRecord w.record, w.record, []⟩ none none, reg)

/-- The records of one statement, under one hold of the lock. -/
def encodeWrites (normSq : List UInt32 → UInt64) (lobe : UInt16) :
    List Write → LobeFieldRegistry → List BatchOp × LobeFieldRegistry
  | [], reg => ([], reg)
  | w :: ws, reg =>
    let (ops, reg) := encodeWrite normSq lobe w reg
    let (ops', reg) := encodeWrites normSq lobe ws reg
    (ops ++ ops', reg)

structure Keyspaces where
  spatial : ExtTreeMap Key Stored
  vectors : ExtTreeMap Key (List UInt8)
  dictionary : ExtTreeMap Key (List Text)

namespace Keyspaces

variable (ks : Keyspaces)

def apply : BatchOp → Keyspaces
  | .putSpatial key stored => { ks with spatial := ks.spatial.insert key stored }
  | .removeSpatial key => { ks with spatial := ks.spatial.erase key }
  | .putVectors key column => { ks with vectors := ks.vectors.insert key column }
  | .removeVectors key => { ks with vectors := ks.vectors.erase key }
  | .putDictionary key names => { ks with dictionary := ks.dictionary.insert key names }

/-- A batch is committed as a whole. -/
def commit (ops : List BatchOp) : Keyspaces := ops.foldl apply ks

/-- The names that the dictionary keyspace has for a lobe. -/
def names (lobe : UInt16) : List Text :=
  (ks.dictionary[registryKey lobe]?).getD []

end Keyspaces

/-- A batch on its way from the lock to its commit. -/
structure Batch where
  lobe : UInt16
  ops : List BatchOp
  /-- The names of the lobe when the batch got its last number, none if it has no numbers. -/
  seen : List Text
  /-- Whether the dictionary grew, so that the batch has an entry with all the names. -/
  grew : Bool

structure RegistryState where
  registry : LobeFieldRegistry
  keyspaces : Keyspaces
  pending : ℕ → Option Batch

inductive RegistryLabel where
  /-- A writer takes the lock, serialises its records, and lets go of the lock. -/
  | serialize (writer : ℕ) (lobe : UInt16) (writes : List Write)
  | commit (writer : ℕ)
  | fail (writer : ℕ)
  | crash

/-- The environment: the float arithmetic of the norm, and the names of the lobes. -/
structure RegistryConfig where
  normSq : List UInt32 → UInt64
  lobeName : UInt16 → Text

variable (cfg : RegistryConfig)

/-- A write to a lobe: its key starts with the lobe, and its record can be stored. -/
abbrev Write.Fits (lobe : UInt16) (w : Write) : Prop :=
  w.key.take 2 = beBytes lobe ∧ w.record.lobeName = cfg.lobeName lobe ∧ w.record.Storable

namespace RegistryState

variable (s : RegistryState)

/-- The names of a lobe in memory. -/
def names (lobe : UInt16) : List Text :=
  (s.registry.dictOrDefault lobe).idToName

/-- The batch of a statement. -/
def batch (lobe : UInt16) (writes : List Write) : Batch :=
  let (ops, reg) := encodeWrites cfg.normSq lobe writes s.registry
  let after := (reg.dictOrDefault lobe).idToName
  { lobe, ops, seen := if writes.all (·.asked.isEmpty) then [] else after,
    grew := (s.names lobe).length < after.length }

def reboot : RegistryState :=
  { s with registry := .loadFromDisk s.keyspaces.dictionary, pending := fun _ => none }

def next : RegistryLabel → Option RegistryState
  | .serialize writer lobe writes =>
    if s.pending writer = none ∧ ∀ w ∈ writes, w.Fits cfg lobe then
      some { s with
        registry := (encodeWrites cfg.normSq lobe writes s.registry).2
        pending := Function.update s.pending writer (some (s.batch cfg lobe writes)) }
    else none
  | .commit writer =>
    (s.pending writer).map fun b =>
      { s with
        keyspaces := s.keyspaces.commit b.ops
        pending := Function.update s.pending writer none }
  | .fail writer =>
    (s.pending writer).map fun _ =>
      { s with pending := Function.update s.pending writer none }
  | .crash => some s.reboot

/-- `deserialize_hydrated` on what is stored under a key, with the lobe's dictionary. -/
def read (lobe : UInt16) (key : Key) : Option Record :=
  s.keyspaces.spatial[key]?.bind fun x =>
    deserializeHydrated s.keyspaces.vectors[key]? x.blob (cfg.lobeName lobe)
      (s.registry.getDict lobe)

end RegistryState

def registrySys : TransSys RegistryState RegistryLabel where
  init := ⟨⟨∅⟩, ⟨∅, ∅, ∅⟩, fun _ => none⟩
  next := RegistryState.next cfg

/-- A stored record uses a number for one of its fields. -/
abbrev Stored.Uses (x : Stored) (id : UInt16) (name : Text) : Prop :=
  x.blob.formatVersion ≠ 1 ∧ name ∈ x.record.names ∧ x.names[id.toNat]? = some name

variable (s : RegistryState)

/-- **Decodable.** After a reboot every committed record is read as it was written. -/
def RegistryState.Decodable : Prop :=
  ∀ (lobe : UInt16) (key : Key) (x : Stored), key.take 2 = beBytes lobe →
    s.keyspaces.spatial[key]? = some x → s.reboot.read cfg lobe key = some x.record

/-- **No number is used twice.** A number that a committed record uses is in the lobe's
dictionary the number of no other name. -/
def RegistryState.NumbersKept : Prop :=
  ∀ (lobe : UInt16) (key : Key) (x : Stored) (id : UInt16) (name name' : Text),
    key.take 2 = beBytes lobe → s.keyspaces.spatial[key]? = some x → x.Uses id name →
      (s.registry.dictOrDefault lobe).nameToId[name']? = some id → name' = name

/-- **Growth order.** A batch is committed only when the dictionary keyspace already has the
names it saw, and a batch that brings new names only when it has no more than those; no lobe
gets more names than there are numbers. Failed commits and crashes are not restricted. -/
def GrowthOrder : RegistryLabel → Prop
  | .serialize _ lobe writes => (s.names lobe ++ writes.flatMap Write.asked).dedup.length ≤ 2 ^ 16
  | .commit writer =>
    ∀ b ∈ s.pending writer, if b.grew then (s.keyspaces.names b.lobe).length ≤ b.seen.length
      else b.seen.length ≤ (s.keyspaces.names b.lobe).length
  | .fail _ | .crash => True

instance (l : RegistryLabel) : Decidable (GrowthOrder s l) :=
  match l with
  | .serialize _ lobe writes =>
    inferInstanceAs (Decidable ((s.names lobe ++ writes.flatMap Write.asked).dedup.length ≤ _))
  | .commit writer => inferInstanceAs (Decidable (∀ b ∈ s.pending writer, _))
  | .fail _ => .isTrue trivial
  | .crash => .isTrue trivial

end XyzDB.Engine
