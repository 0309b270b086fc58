import XyzDB.Engine.Store

/-!
# Finding records

A target with conditions is resolved along one of four ways: by identifier, through the anchor
entries of the dictionary, through the bucket that the conditions fix, or by a scan of the lobe.
SET, DELETE and LINK find their records here, and so do FIND and the SCAN of a lobe without
ghosts.
-/

namespace XyzDB.Engine

open Std (ExtTreeMap)
open Talk (Filter FilterExpr FilterOp FindTarget)

/-- Records, each with its key. -/
abbrev Found := List (Record × Key)

/-- The key of a record from a scan, which is copied into 24 bytes. -/
def copyKey (k : Key) : Key :=
  k.take spatialKeySize ++ List.replicate (spatialKeySize - k.length) 0

section

variable (p : Platform)

/-- `detect_gravity_eq`: the bucket that the conditions fix. -/
def detectGravityEq (c : Catalog) (lobe : Text) (filters : List CoreFilter) : Option (BitVec 48) :=
  (c.getGravitySpec lobe).bind (·.pinnedGravityHash p filters)

namespace Db

variable (db : Db)

/-- The records of some entries that pass a test, in the order of their keys; what does not
decode is passed over. -/
def select (lobe : UInt16) (test : Record → Bool) (entries : List (Key × Blob)) : Found :=
  entries.filterMap fun x =>
    match db.decode (db.catalog.lobeNameForId lobe) lobe x.1 x.2 with
    | some r => if test r then some (r, x.1) else none
    | none => none

def findGravityBucket (lobe : UInt16) (hash : BitVec 48) (filters : List CoreFilter) : Found :=
  db.select lobe (matchesFilters p · filters)
    ((db.rangeEntries (SpatialKey.prefixForGravity lobe hash)).filter
      fun x => x.1.length == spatialKeySize)

def scanLobeFiltered (lobe : UInt16) (filters : List CoreFilter) : Found :=
  (db.select lobe (matchesFilters p · filters) (db.lobeEntries lobe)).map fun x =>
    (x.1, copyKey x.2)

/-- `find_by_lid`. A cached record comes without its key. -/
def findByLid (text : Text) : Except XyzError Found :=
  match Lid.parse text with
  | none => .error (.parse text)
  | some lid =>
    match db.cached lid.lobeId lid with
    | some r => .ok [(r, List.replicate spatialKeySize 0)]
    | none =>
      match db.trees.identity[lid]? with
      | none => .ok []
      | some bytes => do
        let key ← spatialKeyOf "bad spatial key in identity".toList bytes
        match db.trees.spatial[key]? with
        | none => return []
        | some blob =>
          let lobe := keyLobe key
          match db.decode (db.catalog.lobeNameForId lobe) lobe key blob with
          | some r => return [(r, key)]
          | none => throw .storage

/-- The first condition that fixes an anchor. -/
def anchorFilter (lobe : Text) (filters : List Filter) : Option Filter :=
  filters.find? fun f => f.op = .eq && db.catalog.isAnchor lobe f.field

/-- `find_in_lobe`. A value that the dictionary does not have is not looked for elsewhere. -/
def findInLobe (lobeName : Text) (filters : List Filter) : Except XyzError Found :=
  match db.catalog.lobes.get lobeName with
  | none => .error (.lobeNotFound lobeName)
  | some lobe =>
    let conditions := convertFilters p filters
    match db.anchorFilter lobeName filters with
    | some f =>
      match db.trees.dictionary[dictionaryKey lobe f.field (literalString p f.value)]? with
      | none => .ok []
      | some lid => do
        let found ← db.findByLid lid.toText
        return found.filter fun x => matchesFilters p x.1 conditions
    | none =>
      match detectGravityEq p db.catalog lobeName conditions with
      | some hash => .ok (db.findGravityBucket p lobe hash conditions)
      | none => .ok (db.scanLobeFiltered p lobe conditions)

/-- `resolve_find`. The conditions on an identifier are not looked at. -/
def resolveFind (target : FindTarget) (filters : List Filter) : Except XyzError Found :=
  match target with
  | .byLid lid => db.findByLid lid
  | .lobe name => db.findInLobe p name filters

/-- `resolve_find_expr`: a conjunction may use an index, every other tree is walked for all
candidates. -/
def resolveFindExpr (target : FindTarget) (e : Option FilterExpr) : Except XyzError Found :=
  match e with
  | none => db.resolveFind p target []
  | some e =>
    match asFlatAnd e with
    | some flat => db.resolveFind p target flat
    | none => do
      let all ← db.resolveFind p target []
      return all.filter fun x => matchesCoreExpr p x.1 (toCoreExpr p e)

end Db

/-- `detect_satellite_eq`: the satellite that the conditions fix. -/
def detectSatelliteEq (c : Catalog) (lobe : Text) (filters : List CoreFilter) : Option UInt16 := do
  let field ← c.satelliteSpecs[lobe]?
  let v ← GravitySpec.pinnedValue filters field
  return p.hash16 (valueToAnchorString p v)

def resolveGravityScanRange (c : Catalog) (lobeName : Text) (lobe : UInt16) (hash : BitVec 48)
    (e : Option FilterExpr) : Key × Key :=
  match detectSatelliteEq p c lobeName (convertFilterExpr p e) with
  | some sat => SpatialKey.prefixForSatellite lobe hash sat
  | none => SpatialKey.prefixForGravity lobe hash

/-- The records that an AGGREGATE with a limit counts. It counts before it looks at the
limit. -/
def counted (limit : Option ℕ) (records : List Record) : List Record :=
  match limit with
  | some limit => records.take (max limit 1)
  | none => records

namespace Db

/-- The records of a bucket that satisfy a WHERE, as `scan_primary_gravity_indexed`,
`scan_primary_gravity_indexed_topn` and AGGREGATE go through them. -/
def bucketRecords (db : Db) (lobe : UInt16) (hash : BitVec 48) (e : Option FilterExpr) :
    List Record :=
  (db.select lobe (recordMatchesOptExpr p · e) (db.rangeEntries
      (resolveGravityScanRange p db.catalog (db.catalog.lobeNameForId lobe) lobe hash e))).map
    Prod.fst

/-- The records of a lobe that satisfy a WHERE, as `scan_primary_full_expr`,
`scan_primary_topn_expr` and AGGREGATE go through them. -/
def lobeRecords (db : Db) (lobe : UInt16) (e : Option FilterExpr) : List Record :=
  (db.select lobe (recordMatchesOptExpr p · e) (db.lobeEntries lobe)).map Prod.fst

end Db

structure FindPage where
  records : List Record
  pageTail : Option Key
  hasMore : Bool

/-- `find_gravity_paginated`; the page after a key starts behind it. -/
def findGravityPaginated (db : Db) (lobe : UInt16) (hash : BitVec 48) (e : Option FilterExpr)
    (limit : ℕ) (startAfter : Option Key) : Except XyzError FindPage :=
  let (least, greatest) := SpatialKey.prefixForGravity lobe hash
  let page (lower : Key) : FindPage :=
    let found := db.select lobe (recordMatchesOptExpr p · e) (db.rangeEntries (lower, greatest))
    ⟨(found.take limit).map Prod.fst, ((found.take limit).map Prod.snd).getLast?,
      decide (limit < found.length)⟩
  match startAfter with
  | none => .ok (page least)
  | some key =>
    if key.length = spatialKeySize ∧ least ≤ key ∧ key ≤ greatest then .ok (page (key ++ [0]))
    else .error (.invalidQuery
      "cursor invalid: resume point falls outside the gravity bucket".toList)

end

end XyzDB.Engine
