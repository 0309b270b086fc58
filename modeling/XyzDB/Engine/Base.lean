import XyzDB.Engine.Writes

/-!
# What every store keeps

Some facts about the keys of a store hold after any statement, whatever was declared and whoever
wrote: a key names its lobe, which is known and is the lobe of the record's identifier, in the
tree of records as in the entries that lead there (`Base`). So what a target is resolved to
belongs to the lobe that the records say they belong to (`Base.found`).

A tree after a batch is the tree with the batch's writes to it (`TreeView.get_commit`).
-/

namespace XyzDB.Engine

open Std (ExtTreeMap)
open Talk (Filter FilterExpr FindTarget)

open List Option

/-- One of the trees, and what a change writes to it. -/
structure TreeView (α β : Type) [DecidableEq α] [Ord α] [Std.TransOrd α] where
  get : Trees → ExtTreeMap α β
  write : KeyOp → Option (α × Option β)
  apply : ∀ t op, get (t.apply op) = (write op).elim (get t) (OrdMap.put (get t))

namespace TreeView

variable {α β : Type} [DecidableEq α] [Ord α] [Std.TransOrd α] (v : TreeView α β)

lemma get_commit (t : Trees) (ops : List KeyOp) :
    v.get (t.commit ops) = OrdMap.putAll (v.get t) (ops.filterMap v.write) := by
  induction ops generalizing t with
  | nil => rfl
  | cons op ops ih =>
    rw [Trees.commit_cons, ih, v.apply]
    cases hw : v.write op with
    | none => rw [filterMap_cons_none hw, elim_none]
    | some w => rw [filterMap_cons_some hw]; rfl

end TreeView

def spatialView : TreeView Key Blob where
  get := Trees.spatial
  write
    | .putSpatial k b => some (k, some b)
    | .removeSpatial k => some (k, none)
    | _ => none
  apply _ op := by cases op <;> rfl

def identityView : TreeView Lid Key where
  get := Trees.identity
  write
    | .putIdentity lid k => some (lid, some k)
    | .removeIdentity lid => some (lid, none)
    | _ => none
  apply _ op := by cases op <;> rfl

def vectorsView : TreeView Key (List UInt8) where
  get := Trees.vectors
  write
    | .putVectors k column => some (k, some column)
    | .removeVectors k => some (k, none)
    | _ => none
  apply _ op := by cases op <;> rfl

def dictionaryView : TreeView Key Lid where
  get := Trees.dictionary
  write
    | .putDictionary e lid => some (e, some lid)
    | .removeDictionary e => some (e, none)
    | _ => none
  apply _ op := by cases op <;> rfl

namespace Change

/-- What a change puts (`some`) or removes (`none`) in the spatial tree. -/
def spatialWrites : Change → List (Key × Option Blob)
  | .insert xs => xs.map fun x => (x.bytes, some x.encoded.blob)
  | .upsert u | .set u | .link u =>
    (u.newKey.toList.map fun _ => (u.oldKey, none)) ++ [(u.key, some u.encoded.blob)]
  | .delete d => [(d.key, none)]
  | _ => []

def identityWrites : Change → List (Lid × Option Key)
  | .insert xs => xs.map fun x => (x.record.lid, some x.bytes)
  | .upsert u | .set u | .link u => u.newKey.toList.map fun k => (u.record.lid, some k.toBytes)
  | .delete d => [(d.record.lid, none)]
  | _ => []

def vectorsWrites : Change → List (Key × Option (List UInt8))
  | .insert xs => xs.flatMap fun x => x.encoded.column.toList.map fun c => (x.bytes, some c)
  | .upsert u | .set u | .link u =>
    (u.newKey.toList.map fun _ => (u.oldKey, none)) ++
      u.encoded.column.toList.map fun c => (u.key, some c)
  | .delete d => [(d.key, none)]
  | _ => []

def dictionaryWrites : Change → List (Key × Option Lid)
  | .insert xs => xs.flatMap fun x => x.entries.map fun e => (e.2.2, some x.record.lid)
  | .delete d => d.entries.map fun e => (e.2.2, none)
  | .index entry lid => [(entry, some lid)]
  | _ => []

end Change

section

variable (p : Platform) (db : Db) (c : Change)

/-- **A tree after a change** is the tree with the writes of the change. -/
theorem Db.spatial_apply :
    (db.apply p c).trees.spatial = OrdMap.putAll db.trees.spatial c.spatialWrites := by
  refine (spatialView.get_commit db.trees c.ops).trans (congrArg (OrdMap.putAll _) ?_)
  cases c with
  | insert xs =>
    simp [Change.ops, Change.spatialWrites, filterMap_flatMap, ← map_eq_flatMap, Insertion.ops,
      Encoding.sideOps, spatialView]
  | upsert u | set u | link u =>
    cases h : u.newKey <;> simp [Change.ops, Change.spatialWrites, Revision.ops, h, Revision.key,
      Encoding.ops, Encoding.sideOps, spatialView]
  | delete d => simp [Change.ops, Change.spatialWrites, Removal.ops, spatialView]
  | _ => rfl

lemma Db.identity_apply :
    (db.apply p c).trees.identity = OrdMap.putAll db.trees.identity c.identityWrites := by
  refine (identityView.get_commit db.trees c.ops).trans (congrArg (OrdMap.putAll _) ?_)
  cases c with
  | insert xs =>
    simp [Change.ops, Change.identityWrites, filterMap_flatMap, ← map_eq_flatMap, Insertion.ops,
      Encoding.sideOps, identityView]
  | upsert u | set u | link u =>
    cases h : u.newKey <;> simp [Change.ops, Change.identityWrites, Revision.ops, h, Encoding.ops,
      Encoding.sideOps, identityView]
  | delete d => simp [Change.ops, Change.identityWrites, Removal.ops, identityView]
  | _ => rfl

lemma Db.vectors_apply :
    (db.apply p c).trees.vectors = OrdMap.putAll db.trees.vectors c.vectorsWrites := by
  refine (vectorsView.get_commit db.trees c.ops).trans (congrArg (OrdMap.putAll _) ?_)
  cases c with
  | insert xs =>
    simp [Change.ops, Change.vectorsWrites, filterMap_flatMap, Insertion.ops, Encoding.sideOps,
      vectorsView]
  | upsert u | set u | link u =>
    cases h : u.newKey <;> simp [Change.ops, Change.vectorsWrites, Revision.ops, h, Revision.key,
      Encoding.ops, Encoding.sideOps, vectorsView]
  | delete d => simp [Change.ops, Change.vectorsWrites, Removal.ops, vectorsView]
  | _ => rfl

lemma Db.dictionary_apply :
    (db.apply p c).trees.dictionary = OrdMap.putAll db.trees.dictionary c.dictionaryWrites := by
  refine (dictionaryView.get_commit db.trees c.ops).trans (congrArg (OrdMap.putAll _) ?_)
  cases c with
  | insert xs =>
    simp [Change.ops, Change.dictionaryWrites, filterMap_flatMap, Insertion.ops, Encoding.sideOps,
      dictionaryView]
  | upsert u | set u | link u =>
    cases h : u.newKey <;> simp [Change.ops, Change.dictionaryWrites, Revision.ops, h, Encoding.ops,
      Encoding.sideOps, dictionaryView]
  | delete d => simp [Change.ops, Change.dictionaryWrites, Removal.ops, dictionaryView]
  | _ => rfl

end

/-- The identifier that a blob carries. -/
def Blob.lid : Blob → Lid
  | .v1 p => p.lid
  | .v2 p => p.lid
  | .v5 p => p.lid

namespace Catalog

/-- A name stands for the lobe with a number. -/
def Names (c : Catalog) (name : Text) (lobe : UInt16) : Prop := c.lobes.get name = some lobe

end Catalog

/-- The trees and the catalog fit each other: lengths, lobes and record ids. -/
structure Base (db : Db) : Prop where
  /-- The key of a record names a known lobe, that of its identifier. -/
  spatial : ∀ k b, db.trees.spatial[k]? = some b →
    k.length = spatialKeySize ∧ Lid.lobeId b.lid = keyLobe k ∧
      ∃ name, db.catalog.Names name (keyLobe k)
  identity : ∀ (lid : Lid) k, db.trees.identity[lid]? = some k →
    k.length = spatialKeySize ∧ keyLobe k = lid.lobeId
  dictionary : ∀ e (lid : Lid), db.trees.dictionary[e]? = some lid → lid.lobeId = keyLobe e
  cache : ∀ lobe (lid : Lid) r, db.cached lobe lid = some r →
    r.lid = lid ∧ lid.lobeId = lobe ∧ db.catalog.Names r.lobeName lobe

lemma base_empty (cached : Bool) (spillLimit : ℕ) : Base (.empty cached spillLimit) where
  spatial _ _ h := by simp [Db.empty, Trees.empty] at h
  identity _ _ h := by simp [Db.empty, Trees.empty] at h
  dictionary _ _ h := by simp [Db.empty, Trees.empty] at h
  cache _ _ _ h := by cases cached <;> simp [Db.empty, Db.cached] at h

section

variable {db : Db} {name : Text} {lobe : UInt16} {key : Key} {blob : Blob} {r : Record}

lemma deserializeRecord_eq_some {d : Option FieldDict}
    (h : deserializeRecord blob name d = some r) : r.lid = blob.lid ∧ r.lobeName = name := by
  have hids : ∀ {payload : Payload UInt16}, deserializeIds payload name d = some r →
      r.lid = payload.lid ∧ r.lobeName = name := by
    intro payload h
    unfold deserializeIds at h
    split at h
    · obtain ⟨d, -, rfl⟩ := map_eq_some_iff.mp h
      exact ⟨rfl, rfl⟩
    · cases h
  cases blob with
  | v1 payload =>
    simp only [deserializeRecord] at h
    split at h <;> cases h
    exact ⟨rfl, rfl⟩
  | v2 payload => exact hids h
  | v5 payload => exact hids h

lemma hydrateVector_lid (r : Record) (column : List UInt8) (d : FieldDict) :
    (hydrateVector r column d).lid = r.lid ∧ (hydrateVector r column d).lobeName = r.lobeName := by
  unfold hydrateVector
  split
  · exact ⟨rfl, rfl⟩
  · split <;> exact ⟨rfl, rfl⟩

lemma deserializeHydrated_eq_some {column : Option (List UInt8)} {d : Option FieldDict}
    (h : deserializeHydrated column blob name d = some r) :
      r.lid = blob.lid ∧ r.lobeName = name := by
  simp only [deserializeHydrated, bind_eq_bind, bind_eq_some_iff] at h
  obtain ⟨plain, hplain, h⟩ := h
  obtain ⟨hlid, hname⟩ := deserializeRecord_eq_some hplain
  split at h
  · split at h
    · cases h
      obtain ⟨hlid', hname'⟩ := hydrateVector_lid plain _ _
      exact ⟨hlid'.trans hlid, hname'.trans hname⟩
    · cases h
      exact ⟨hlid, hname⟩
  · cases h
    exact ⟨hlid, hname⟩

lemma decode_eq_some (h : db.decode name lobe key blob = some r) :
    r.lid = blob.lid ∧ r.lobeName = name := deserializeHydrated_eq_some h

/-- A record with its names written out is read the same everywhere. -/
lemma decode_v1 (payload : Payload Text) : db.decode name lobe key (.v1 payload) =
      if payload.decodes then
        some ⟨payload.lid, name, payload.fields, payload.createdAt, payload.updatedAt⟩
      else none := by
  simp only [Db.decode, deserializeHydrated, deserializeRecord]
  split <;> rfl

lemma Catalog.names_lobeNameForId {c : Catalog} (h : c.Names name lobe) :
    c.Names (c.lobeNameForId lobe) lobe := by
  have hmem : (name, lobe) ∈ c.lobes.byName.toList :=
    ExtTreeMap.mem_toList_iff_getElem?_eq_some.mpr h
  cases hfind : c.lobes.byName.toList.find? fun x => x.2 == lobe with
  | none => exact absurd (beq_self_eq_true lobe) (find?_eq_none.mp hfind _ hmem)
  | some x =>
    have hx := find?_some hfind
    rw [beq_iff_eq] at hx
    have hget : c.lobes.byName[x.1]? = some x.2 :=
      ExtTreeMap.mem_toList_iff_getElem?_eq_some.mp (mem_of_find?_eq_some hfind)
    simp only [Names, lobeNameForId, LobeRegistry.getById, hfind, map_some,
      getD_some, LobeRegistry.get]
    rw [hget, hx]

lemma mem_lobeEntries {x : Key × Blob} :
    x ∈ db.lobeEntries lobe ↔ db.trees.spatial[x.1]? = some x.2 ∧ beBytes lobe <+: x.1 := by
  rw [Db.lobeEntries, mem_filter, ExtTreeMap.mem_toList_iff_getElem?_eq_some (k := x.1),
    isPrefixOf_iff_prefix]

lemma mem_rangeEntries {range : Key × Key} {x : Key × Blob} : x ∈ db.rangeEntries range ↔
      db.trees.spatial[x.1]? = some x.2 ∧ range.1 ≤ x.1 ∧ x.1 ≤ range.2 := by
  rw [Db.rangeEntries, mem_filter, ExtTreeMap.mem_toList_iff_getElem?_eq_some (k := x.1),
    Bool.and_eq_true, decide_eq_true_iff, decide_eq_true_iff]

lemma keyLobe_of_prefix (h : beBytes lobe <+: key) : keyLobe key = lobe := by
  obtain ⟨rest, rfl⟩ := h
  exact keyLobe_beBytes_append lobe rest

lemma mem_select {test : Record → Bool} {entries : List (Key × Blob)} :
    x ∈ db.select lobe test entries ↔ ∃ b, (x.2, b) ∈ entries ∧
      db.decode (db.catalog.lobeNameForId lobe) lobe x.2 b = some x.1 ∧ test x.1 = true := by
  rw [Db.select, mem_filterMap]
  constructor
  · rintro ⟨⟨k, b⟩, hmem, h⟩
    split at h
    · next r hr =>
      split at h <;> cases h
      next htest => exact ⟨b, hmem, hr, htest⟩
    · cases h
  · rintro ⟨b, hmem, hdecode, htest⟩
    refine ⟨(x.2, b), hmem, ?_⟩
    simp only [hdecode, if_pos htest]

end

/-- The store has a record, in its trees or in the cache. -/
def Db.Holds (db : Db) (r : Record) : Prop :=
  (∃ k b, db.trees.spatial[k]? = some b ∧
    db.decode (db.catalog.lobeNameForId (keyLobe k)) (keyLobe k) k b = some r) ∨
      ∃ lobe lid, db.cached lobe lid = some r

section

variable {p : Platform} {db : Db} {x : Record × Key}

lemma holds_of_select {test : Record → Bool} {entries : List (Key × Blob)}
    (hentries : ∀ x ∈ entries, db.trees.spatial[x.1]? = some x.2 ∧ keyLobe x.1 = lobe)
    (hx : x ∈ db.select lobe test entries) : db.Holds x.1 := by
  obtain ⟨b, hmem, hdecode, -⟩ := mem_select.mp hx
  obtain ⟨hspatial, rfl⟩ := hentries _ hmem
  exact .inl ⟨x.2, b, hspatial, hdecode⟩

namespace Base

variable (h : Base db)

include h

lemma holds_of_findByLid {text : Text} {found : Found} (hfound : db.findByLid text = .ok found)
    (hx : x ∈ found) : db.Holds x.1 := by
  unfold Db.findByLid at hfound
  split at hfound
  · cases hfound
  · next lid _ =>
    split at hfound
    · next r hr =>
      cases hfound
      obtain rfl := mem_singleton.mp hx
      exact .inr ⟨_, _, hr⟩
    · split at hfound
      · cases hfound
        cases hx
      · next bytes hbytes =>
        rw [spatialKeyOf_of_length (h.identity _ _ hbytes).1] at hfound
        simp only [bind, Except.bind] at hfound
        split at hfound
        · cases hfound
          cases hx
        · next blob hblob =>
          split at hfound <;> cases hfound
          next r hr =>
          obtain rfl := mem_singleton.mp hx
          exact .inl ⟨_, blob, hblob, hr⟩

lemma holds_of_findInLobe {filters : List Filter} {found : Found}
    (hfound : db.findInLobe p name filters = .ok found) (hx : x ∈ found) : db.Holds x.1 := by
  unfold Db.findInLobe at hfound
  split at hfound
  · cases hfound
  · next lobe _ =>
    dsimp only at hfound
    split at hfound
    · split at hfound
      · cases hfound
        cases hx
      · next lid _ =>
        cases hlid : db.findByLid (Lid.toText lid) with
        | error e => simp [hlid] at hfound
        | ok all =>
          simp only [hlid] at hfound
          cases hfound
          exact h.holds_of_findByLid hlid (mem_filter.mp hx).1
    · split at hfound
      · next hash _ =>
        cases hfound
        refine holds_of_select (fun y hy => ?_) hx
        obtain ⟨hy, hlen⟩ := mem_filter.mp hy
        obtain ⟨hspatial, hrange⟩ := mem_rangeEntries.mp hy
        exact ⟨hspatial, ((mem_prefixForGravity (by simpa using hlen) _ _).mp hrange).1⟩
      · cases hfound
        obtain ⟨y, hy, rfl⟩ := mem_map.mp hx
        show db.Holds y.1
        refine holds_of_select (fun z hz => ?_) hy
        obtain ⟨hspatial, hprefix⟩ := mem_lobeEntries.mp hz
        exact ⟨hspatial, keyLobe_of_prefix hprefix⟩

variable {target : FindTarget}

lemma holds_of_resolveFind {filters : List Filter} {found : Found}
    (hfound : db.resolveFind p target filters = .ok found) (hx : x ∈ found) : db.Holds x.1 := by
  cases target with
  | byLid lid => exact h.holds_of_findByLid hfound hx
  | lobe name => exact h.holds_of_findInLobe hfound hx

/-- **What is found is there.** -/
theorem holds_of_found {e : Option FilterExpr} {found : Found}
    (hfound : db.resolveFindExpr p target e = .ok found) (hx : x ∈ found) : db.Holds x.1 := by
  unfold Db.resolveFindExpr at hfound
  split at hfound
  · exact h.holds_of_resolveFind hfound hx
  · next e =>
    split at hfound
    · exact h.holds_of_resolveFind hfound hx
    · cases hall : db.resolveFind p target [] with
      | error e => simp [hall] at hfound
      | ok all =>
        simp only [hall] at hfound
        cases hfound
        exact h.holds_of_resolveFind hall (mem_filter.mp hx).1

lemma names_of_holds (hr : db.Holds r) : db.catalog.Names r.lobeName (Lid.lobeId r.lid) := by
  rcases hr with ⟨k, b, hspatial, hdecode⟩ | ⟨lobe, lid, hcached⟩
  · obtain ⟨-, hlid, name, hname⟩ := h.spatial _ _ hspatial
    obtain ⟨hrlid, hrname⟩ := decode_eq_some hdecode
    rw [hrlid, hrname, hlid]
    exact Catalog.names_lobeNameForId hname
  · obtain ⟨hlid, hlobe, hname⟩ := h.cache _ _ _ hcached
    rw [hlid, hlobe]
    exact hname

/-- **What is found knows its lobe.** -/
theorem found {e : Option FilterExpr} {found : Found}
    (hfound : db.resolveFindExpr p target e = .ok found) (hx : x ∈ found) :
    db.catalog.Names x.1.lobeName (Lid.lobeId x.1.lid) :=
  h.names_of_holds (h.holds_of_found hfound hx)

end Base

end

end XyzDB.Engine
