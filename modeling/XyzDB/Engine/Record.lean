import XyzDB.Lib.Codec
import XyzDB.Lib.Leb128
import XyzDB.Talk.Values

/-!
# Records and their on-disk forms

A record is a map from field names to values. On disk the names are written out (V1) or
replaced by the numbers that the lobe's field dictionary gives them (V2, V5); V5 also moves
one vector out of the record into a column of its own.

`postcard` is not part of the repository: a blob is kept as its version and the payload that
`postcard` encodes, and reading it fails exactly where the hand-written `Deserialize` of a
value does, on values nested more than `maxDecodeDepth` deep. The column is written and read
byte by byte, as in the source.
-/

namespace XyzDB.Engine

open Std (ExtTreeMap)

abbrev Value := Talk.Value

/-- A `BTreeMap` of named values. -/
abbrev Fields := ExtTreeMap Text Value

structure Record where
  lid : BitVec 128
  lobeName : Text
  fields : Fields
  createdAt : ℤ
  updatedAt : ℤ

/-- Names and their numbers, in both directions; a name's number is its index. -/
structure FieldDict where
  nameToId : ExtTreeMap Text UInt16
  idToName : List Text

namespace FieldDict

def new : FieldDict := ⟨∅, []⟩

/-- `from_names`, with the index of the name at the front. -/
def fromNamesAux : ℕ → List Text → ExtTreeMap Text UInt16 → ExtTreeMap Text UInt16
  | _, [], m => m
  | i, name :: names, m => fromNamesAux (i + 1) names (m.insert name (UInt16.ofNat i))

def fromNames (names : List Text) : FieldDict := ⟨fromNamesAux 0 names ∅, names⟩

/-- The number of a name, given out now if it has none. The length is cut to 16 bits. -/
def getOrCreateId (d : FieldDict) (name : Text) : UInt16 × FieldDict :=
  match d.nameToId[name]? with
  | some id => (id, d)
  | none =>
    let id := UInt16.ofNat d.idToName.length
    (id, ⟨d.nameToId.insert name id, d.idToName ++ [name]⟩)

def getName (d : FieldDict) (id : UInt16) : Option Text := d.idToName[id.toNat]?

end FieldDict

/-- The deepest nesting of values that is decoded. -/
def maxDecodeDepth : ℕ := 32

mutual

/-- How deep a value is nested; a plain value has depth one. -/
def valueDepth : Value → ℕ
  | .list items => itemsDepth items + 1
  | .map pairs => pairsDepth pairs + 1
  | _ => 1

def itemsDepth : List Value → ℕ
  | [] => 0
  | v :: items => max (valueDepth v) (itemsDepth items)

def pairsDepth : List (Text × Value) → ℕ
  | [] => 0
  | (_, v) :: pairs => max (valueDepth v) (pairsDepth pairs)

end

/-- What `postcard` encodes: a record without its lobe, its fields keyed by `κ`. -/
structure Payload (κ : Type) [Ord κ] where
  lid : BitVec 128
  fields : ExtTreeMap κ Value
  createdAt : ℤ
  updatedAt : ℤ

/-- A record blob, by the version byte behind the magic. -/
inductive Blob where
  | v1 (payload : Payload Text)
  | v2 (payload : Payload UInt16)
  | v5 (payload : Payload UInt16)

namespace Blob

def formatVersion : Blob → ℕ
  | .v1 _ => 1
  | .v2 _ => 2
  | .v5 _ => 5

end Blob

/-- Whether `postcard::from_bytes` accepts the payload. -/
def Payload.decodes {κ : Type} [Ord κ] [Std.TransOrd κ] (p : Payload κ) : Bool :=
  p.fields.toList.all fun f => valueDepth f.2 ≤ maxDecodeDepth

def serializeRecord (r : Record) : Blob := .v1 ⟨r.lid, r.fields, r.createdAt, r.updatedAt⟩

/-- Give every field its number, in the order of the names. -/
def assignIds : List (Text × Value) → FieldDict → List (UInt16 × Value) × FieldDict
  | [], d => ([], d)
  | (name, v) :: rest, d =>
    let (id, d) := d.getOrCreateId name
    let (ids, d) := assignIds rest d
    ((id, v) :: ids, d)

def serializeRecordV2 (r : Record) (d : FieldDict) : Blob × FieldDict :=
  let (ids, d) := assignIds r.fields.toList d
  (.v2 ⟨r.lid, ExtTreeMap.ofList ids, r.createdAt, r.updatedAt⟩, d)

def xyzdbMagic : List UInt8 := [0x58, 0x59]

/-- `write_leb128`, of a `u128`. -/
def writeLeb128 (n : ℕ) : List UInt8 := Leb128.write 128 n

/-- `read_leb128`, of a `u128`. -/
def readLeb128 (bytes : List UInt8) : Option (ℕ × List UInt8) := Leb128.read 128 bytes

/-- The column: `lid`, the number of the field, the vector and its squared norm. The norm is
float arithmetic, whose bits are a parameter. -/
def vectorColumn (normSq : List UInt32 → UInt64) (lid : BitVec 128) (id : UInt16)
    (v : List UInt32) : List UInt8 :=
  xyzdbMagic ++ 0x04 :: (writeLeb128 lid.toNat ++ 0x01 :: (writeLeb128 id.toNat ++
    (writeLeb128 v.length ++ (v.flatMap (fun x => Codec.toLE 4 x.toNat) ++
      Codec.toLE 8 (normSq v).toNat))))

/-- The search vector: the field's number and the vector, when the field holds one. -/
def searchVector (r : Record) (search : Option Text) (d : FieldDict) :
    Option (Text × UInt16 × List UInt32) × FieldDict :=
  match search with
  | none => (none, d)
  | some name =>
    match r.fields[name]? with
    | some (.vector v) =>
      let (id, d) := d.getOrCreateId name
      (some (name, id, v), d)
    | _ => (none, d)

/-- The search vector goes to the column, every other field into the blob. -/
def serializeRecordV5 (normSq : List UInt32 → UInt64) (r : Record) (d : FieldDict)
    (search : Option Text) : Blob × Option (List UInt8) × FieldDict :=
  let (vec, d) := searchVector r search d
  let kept := r.fields.toList.filter fun f => some f.1 != vec.map Prod.fst
  let (ids, d) := assignIds kept d
  (.v5 ⟨r.lid, ExtTreeMap.ofList ids, r.createdAt, r.updatedAt⟩,
    vec.map fun x => vectorColumn normSq r.lid x.2.1 x.2.2, d)

/-- `read_vector_prefix_raw_norm`: the record's `lid`, the field's number and the bytes of the
vector. The norm is read over. -/
def readVectorPrefix (bytes : List UInt8) : Option (BitVec 128 × UInt16 × List UInt8) :=
  match bytes with
  | 0x58 :: 0x59 :: marker :: rest => do
    let hasNorm ← if marker = 0x03 then some false else if marker = 0x04 then some true else none
    let (lid, rest) ← readLeb128 rest
    match rest with
    | 0x01 :: rest =>
      let (id, rest) ← readLeb128 rest
      guard (id < 2 ^ 16)
      let (len, rest) ← readLeb128 rest
      guard (len * 4 < 2 ^ 64)
      guard (len * 4 + (if hasNorm then 8 else 0) ≤ rest.length)
      some (BitVec.ofNat 128 lid, UInt16.ofNat id, rest.take (len * 4))
    | _ => none
  | _ => none

/-- `chunks_exact(4)` and `f32::from_le_bytes`. -/
def decodeFloats : List UInt8 → List UInt32
  | b₀ :: b₁ :: b₂ :: b₃ :: rest => UInt32.ofNat (Codec.ofLE [b₀, b₁, b₂, b₃]) :: decodeFloats rest
  | _ => []

/-- Put the vector of the column back into a record; a column or a number that cannot be
read leaves the record as it is. -/
def hydrateVector (r : Record) (column : List UInt8) (d : FieldDict) : Record :=
  match readVectorPrefix column with
  | none => r
  | some (_, id, bytes) =>
    match d.getName id with
    | none => r
    | some name => { r with fields := r.fields.insert name (.vector (decodeFloats bytes)) }

/-- Numbers back to names; a number without a name is dropped. -/
def namedFields (d : FieldDict) (ids : ExtTreeMap UInt16 Value) : Fields :=
  ExtTreeMap.ofList (ids.toList.filterMap fun f => (d.getName f.1).map fun name => (name, f.2))

/-- A V2 or V5 payload; without a dictionary it is not read. -/
def deserializeIds (p : Payload UInt16) (lobeName : Text) (d : Option FieldDict) : Option Record :=
  if p.decodes then
    d.map fun d => ⟨p.lid, lobeName, namedFields d p.fields, p.createdAt, p.updatedAt⟩
  else none

/-- `deserialize_record`. What no version reads is left to `bincode`, which is an error on
bytes that start with the magic. -/
def deserializeRecord (blob : Blob) (lobeName : Text) (d : Option FieldDict) : Option Record :=
  match blob with
  | .v1 p => if p.decodes then some ⟨p.lid, lobeName, p.fields, p.createdAt, p.updatedAt⟩ else none
  | .v2 p => deserializeIds p lobeName d
  | .v5 p => deserializeIds p lobeName d

/-- `deserialize_hydrated_with`: `column` is what the vectors hold under the record's key. -/
def deserializeHydrated (column : Option (List UInt8)) (blob : Blob) (lobeName : Text)
    (d : Option FieldDict) : Option Record := do
  let r ← deserializeRecord blob lobeName d
  if blob.formatVersion = 5 then
    match d, column with
    | some d, some column => some (hydrateVector r column d)
    | _, _ => some r
  else some r

end XyzDB.Engine
