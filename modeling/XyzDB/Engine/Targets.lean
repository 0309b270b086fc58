import XyzDB.Engine.Buckets

/-!
# WHERE on the target of a write

SET, DELETE and LINK resolve a target and a WHERE to records. A lobe is searched through the
dictionary, through a bucket or by a scan, and a tree with OR or NOT is walked for every candidate.
On a store whose entries lead to the records that have the values (`Consistent`) they find the
records of the target that satisfy the WHERE (`where_honoured`) exactly if the search arrives at
all of them (`Seen`): the entry of the text that the query writes leads to the one that satisfies a
condition on an anchor, the bucket that the query names has those that satisfy a condition on the
gravity (`FlatSeen` is what a query has to look like for that), and a target that is an identifier
satisfies the conjunction, since `find_by_lid` does not look at conditions.
-/

namespace XyzDB.Engine

open Std (ExtTreeMap)
open Talk (Filter FilterExpr FindTarget)

open List Option Db

variable {e : Option FilterExpr} {r : Record} {target : FindTarget}

section

variable (p : Platform)

variable (db : Db)

/-- The records that a target stands for. -/
def Db.denoted : FindTarget → Except XyzError (List Record)
  | .byLid text => (db.findByLid text).map (List.map Prod.fst)
  | .lobe name =>
    match db.catalog.lobes.get name with
    | none => .error (.lobeNotFound name)
    | some lobe => .ok (db.lobeRecords p lobe none)

/-- A target with a WHERE is resolved to the records of the target that satisfy the WHERE. -/
def Honoured (target : FindTarget) (e : Option FilterExpr) : Prop :=
  match db.denoted p target with
  | .error err => db.resolveFindExpr p target e = .error err
  | .ok all => ∃ found, db.resolveFindExpr p target e = .ok found ∧
      ∀ r, r ∈ found.map Prod.fst ↔ r ∈ all ∧ recordMatchesOptExpr p r e = true

/-- A record that a target with a WHERE stands for. -/
def Db.Wanted (target : FindTarget) (e : Option FilterExpr) (lid : Lid) : Prop :=
  ∃ all r, db.denoted p target = .ok all ∧ r ∈ all ∧ recordMatchesOptExpr p r e = true ∧ r.lid = lid

/-- What a SET, DELETE or LINK may do to the trees: rewrite or remove what is under the identifiers
that it is about. -/
def Confined (wanted : Lid → Prop) (db : Db) : Change → Prop
  | .set u | .link u => ∃ lid, wanted lid ∧ db.trees.identity[lid]? = some u.oldKey
  | .delete d => wanted d.record.lid
  | .insert _ | .upsert _ => False
  | _ => True

/-- Target and WHERE of a statement that changes records. -/
def Command.aim : Command → Option (FindTarget × Option FilterExpr)
  | .set stmt => stmt.target.map fun target => (target, stmt.filterExpr)
  | .delete stmt => stmt.target.map fun target => (target, stmt.filterExpr)
  | .link stmt => some (stmt.source, stmt.sourceFilterExpr)
  | _ => none

/-- The entries lead to the records: keys name their lobe, each anchor value of a record has the
entry that leads to it, what an entry leads to can be read, and the cache has what is stored. -/
structure Indexed (db : Db) : Prop where
  base : Base db
  lobes : ∀ name name' id, db.catalog.Names name id → db.catalog.Names name' id → name = name'
  anchors : ∀ name lobe f k b r v, db.catalog.Names name lobe → db.catalog.isAnchor name f = true →
    db.trees.spatial[k]? = some b → keyLobe k = lobe → db.decode name lobe k b = some r →
      r.fields[f]? = some v →
        db.trees.dictionary[dictionaryKey lobe f (valueToAnchorString p v)]? = some r.lid ∧
          db.trees.identity[r.lid]? = some k
  entries : ∀ name lobe f s (lid : Lid) k b, db.catalog.Names name lobe →
    db.catalog.isAnchor name f = true →
      db.trees.dictionary[dictionaryKey lobe f s]? = some lid → db.trees.identity[lid]? = some k →
        db.trees.spatial[k]? = some b → (db.decode name lobe k b).isSome = true
  cache : ∀ lobe (lid : Lid) r, db.cached lobe lid = some r → ∃ k b,
    db.trees.identity[lid]? = some k ∧ db.trees.spatial[k]? = some b ∧
      db.decode (db.catalog.lobeNameForId (keyLobe k)) (keyLobe k) k b = some r

/-- The store is consistent: its entries lead to the records, and its buckets are as the gravity
says. -/
structure Consistent (db : Db) : Prop extends Indexed p db where
  buckets : InBuckets p db

/-- The condition that is looked up in the dictionary has its value printed as the entries have
it, or else the bucket is named plainly. -/
def FlatSeen (name : Text) (filters : List Filter) : Prop :=
  match db.anchorFilter name filters with
  | some f => '.' ∉ f.field ∧ zeroFree (valueOf p f.value) = true ∧
      literalString p f.value = valueToAnchorString p (valueOf p f.value)
  | none => (db.catalog.getGravitySpec name).all (fun spec =>
      (spec.pinnedGravityHash p (convertFilters p filters)).isNone ||
        decide (spec.PinsPlainly (convertFilters p filters))) = true

/-- Where a conjunction is looked up, a record is there: under the entry of an anchor, or in the
bucket. -/
def Db.Reached (name : Text) (lobe : UInt16) (filters : List Filter) (r : Record) : Prop :=
  match db.anchorFilter name filters with
  | some f => ∃ (lid : Lid) (k : Key) (b : Blob),
      db.trees.dictionary[dictionaryKey lobe f.field (literalString p f.value)]? = some lid ∧
        db.trees.identity[lid]? = some k ∧ db.trees.spatial[k]? = some b ∧
          db.decode name lobe k b = some r
  | none => ∀ spec hash, db.catalog.getGravitySpec name = some spec →
      spec.pinnedGravityHash p (convertFilters p filters) = some hash →
        ∃ (k : Key) (b : Blob), db.trees.spatial[k]? = some b ∧ keyLobe k = lobe ∧
          gravityHashFromBytes k = hash ∧ db.decode name lobe k b = some r

/-- A conjunction is looked at: what an identifier stands for satisfies it, and where it is looked
up in a lobe are all the records that satisfy it. -/
def ConjunctionSeen (target : FindTarget) (e : FilterExpr) (filters : List Filter) : Prop :=
  match target with
  | .byLid text => ∀ all, db.denoted p (.byLid text) = .ok all →
      ∀ r ∈ all, recordMatchesOptExpr p r (some e) = true
  | .lobe name => ∀ lobe, db.catalog.lobes.get name = some lobe →
      ∀ r ∈ db.lobeRecords p lobe none, recordMatchesOptExpr p r (some e) = true →
        db.Reached p name lobe filters r

/-- The WHERE is looked at. A tree with OR or NOT always is. -/
def Seen (target : FindTarget) (e : Option FilterExpr) : Prop :=
  ∀ e' filters, e = some e' → asFlatAnd e' = some filters → ConjunctionSeen p db target e' filters

instance (name : Text) (filters : List Filter) : Decidable (FlatSeen p db name filters) := by
  unfold FlatSeen
  split <;> infer_instance

end

variable {filters : List Filter}

section

variable {p : Platform} {db : Db} {name : Text} {lobe : UInt16}

lemma mem_map_select {test : Record → Bool} :
    r ∈ (db.select lobe test (db.lobeEntries lobe)).map Prod.fst ↔
      ∃ k b, db.trees.spatial[k]? = some b ∧ beBytes lobe <+: k ∧
        db.decode (db.catalog.lobeNameForId lobe) lobe k b = some r ∧ test r = true := by
  rw [List.mem_map]
  constructor
  · rintro ⟨⟨r', k⟩, hx, rfl⟩
    obtain ⟨b, hmem, hdecode, htest⟩ := mem_select.mp hx
    obtain ⟨hspatial, hprefix⟩ := mem_lobeEntries.mp hmem
    exact ⟨k, b, hspatial, hprefix, hdecode, htest⟩
  · rintro ⟨k, b, hspatial, hprefix, hdecode, htest⟩
    exact ⟨(r, k), mem_select.mpr ⟨b, mem_lobeEntries.mpr ⟨hspatial, hprefix⟩, hdecode, htest⟩, rfl⟩

lemma mem_scanLobeFiltered {filters : List CoreFilter} :
    r ∈ (db.scanLobeFiltered p lobe filters).map Prod.fst ↔
      r ∈ db.lobeRecords p lobe none ∧ matchesFilters p r filters = true := by
  rw [Db.scanLobeFiltered, List.map_map]
  refine mem_map_select.trans ?_
  simp only [Db.lobeRecords, mem_map_select, recordMatchesOptExpr, ← exists_and_right, and_assoc,
    true_and]

lemma mem_map_filter {found : Found} (q : Record → Bool) :
    r ∈ (found.filter fun x => q x.1).map Prod.fst ↔ r ∈ found.map Prod.fst ∧ q r = true := by
  rw [← List.mem_filter, List.filter_map]
  rfl

namespace Indexed

variable (h : Indexed p db)

include h

lemma lobeNameForId_eq (hname : db.catalog.Names name lobe) :
    db.catalog.lobeNameForId lobe = name :=
  h.lobes _ _ _ (Catalog.names_lobeNameForId hname) hname

lemma findByLid_eq (lid : Lid)
    (hread : ∀ k b, db.trees.identity[lid]? = some k → db.trees.spatial[k]? = some b →
      (db.decode (db.catalog.lobeNameForId (keyLobe k)) (keyLobe k) k b).isSome = true) :
    ∃ found, db.findByLid lid.toText = .ok found ∧ ∀ r, r ∈ found.map Prod.fst ↔
      ∃ k b, db.trees.identity[lid]? = some k ∧ db.trees.spatial[k]? = some b ∧
        db.decode (db.catalog.lobeNameForId (keyLobe k)) (keyLobe k) k b = some r := by
  rw [findByLid, Lid.parse_toText]
  dsimp only
  cases hcached : db.cached lid.lobeId lid with
  | some r' =>
    obtain ⟨k, b, hid, hb, hr'⟩ := h.cache _ _ _ hcached
    refine ⟨_, rfl, fun r => ?_⟩
    simp [hid, hb, hr', eq_comm]
  | none =>
    cases hid : db.trees.identity[lid]? with
    | none => exact ⟨[], rfl, fun r => by simp⟩
    | some k =>
      dsimp only
      rw [spatialKeyOf_of_length (h.base.identity _ _ hid).1]
      simp only [bind, Except.bind]
      cases hb : db.trees.spatial[k]? with
      | none => exact ⟨[], rfl, fun r => by simp [hb]⟩
      | some b =>
        obtain ⟨r', hr'⟩ := isSome_iff_exists.mp (hread k b hid hb)
        simp only [hr']
        exact ⟨[(r', k)], rfl, fun r => by simp [hb, hr', eq_comm]⟩

/-- A record of the lobe that satisfies a condition on an anchor has the entry of the condition's
value. -/
lemma mem_dictionary {f : Filter} (hname : db.catalog.Names name lobe) (hf : f ∈ filters)
    (hop : f.op = .eq) (hanchor : db.catalog.isAnchor name f.field = true) (hdot : '.' ∉ f.field)
    (hzero : zeroFree (valueOf p f.value) = true) (hr : r ∈ db.lobeRecords p lobe none)
    (hmatch : matchesFilters p r (convertFilters p filters) = true) :
    db.trees.dictionary[dictionaryKey lobe f.field (valueToAnchorString p (valueOf p f.value))]? =
      some r.lid ∧ ∃ k b, db.trees.identity[r.lid]? = some k ∧ db.trees.spatial[k]? = some b ∧
        keyLobe k = lobe ∧ db.decode name lobe k b = some r := by
  obtain ⟨k, b, hspatial, hprefix, hdecode, -⟩ := mem_map_select.mp hr
  rw [h.lobeNameForId_eq hname] at hdecode
  have hholds := all_eq_true.mp hmatch _ (mem_map_of_mem (f := convertFilter p) hf)
  simp only [convertFilter, hop, CoreFilter.holds, resolvePath_of_undotted hdot] at hholds
  split at hholds
  · next v hv =>
    have heq := eq_of_valueEq hzero hholds
    have hlobe := keyLobe_of_prefix hprefix
    obtain ⟨hdict, hid⟩ :=
      h.anchors name lobe f.field k b r v hname hanchor hspatial hlobe hdecode hv
    rw [heq] at hdict
    exact ⟨hdict, k, b, hid, hspatial, hlobe, hdecode⟩
  · cases hholds

/-- What the dictionary leads to. -/
lemma findInLobe_anchor (hname : db.catalog.Names name lobe) {f : Filter}
    (hfilter : db.anchorFilter name filters = some f) :
    ∃ found, db.findInLobe p name filters = .ok found ∧
      ∀ r, r ∈ found.map Prod.fst ↔ (r ∈ db.lobeRecords p lobe none ∧
        matchesFilters p r (convertFilters p filters) = true) ∧
          db.Reached p name lobe filters r := by
  have hget : db.catalog.lobes.get name = some lobe := hname
  have hanchor := List.find?_some hfilter
  simp only [Bool.and_eq_true, decide_eq_true_eq] at hanchor
  rw [Db.findInLobe, hget]
  simp only [Db.Reached, hfilter]
  cases hdict : db.trees.dictionary[dictionaryKey lobe f.field (literalString p f.value)]? with
  | none => exact ⟨[], rfl, fun r => by simp⟩
  | some lid =>
    have hlobe : ∀ k, db.trees.identity[lid]? = some k → keyLobe k = lobe := fun k hid => by
      rw [(h.base.identity _ _ hid).2, h.base.dictionary _ _ hdict, keyLobe_dictionaryKey]
    obtain ⟨found, hfind, hfound⟩ := h.findByLid_eq lid fun k b hid hb => by
      rw [hlobe k hid, h.lobeNameForId_eq hname]
      exact h.entries name lobe f.field _ lid k b hname hanchor.2 hdict hid hb
    simp only [hfind]
    refine ⟨_, rfl, fun r => ?_⟩
    rw [mem_map_filter (matchesFilters p · (convertFilters p filters)), hfound, Db.lobeRecords,
      mem_map_select]
    constructor
    · rintro ⟨⟨k, b, hid, hb, hr⟩, hm⟩
      rw [hlobe k hid] at hr
      have hprefix := beBytes_keyLobe_prefix (h.base.spatial _ _ hb).1
      rw [hlobe k hid] at hprefix
      rw [h.lobeNameForId_eq hname] at hr ⊢
      exact ⟨⟨⟨k, b, hb, hprefix, hr, rfl⟩, hm⟩, lid, k, b, rfl, hid, hb, hr⟩
    · rintro ⟨⟨-, hm⟩, lid', k, b, hlid, hid, hb, hr⟩
      cases hlid
      refine ⟨⟨k, b, hid, hb, ?_⟩, hm⟩
      rwa [hlobe k hid, h.lobeNameForId_eq hname]

/-- A record that satisfies a condition on an anchor has the entry of the query's text, if the query
prints the value as the entries have it. -/
lemma reached_of_anchor (hname : db.catalog.Names name lobe) {f : Filter}
    (hfilter : db.anchorFilter name filters = some f) (hdot : '.' ∉ f.field)
    (hzero : zeroFree (valueOf p f.value) = true)
    (hprint : literalString p f.value = valueToAnchorString p (valueOf p f.value))
    (hr : r ∈ db.lobeRecords p lobe none)
    (hmatch : matchesFilters p r (convertFilters p filters) = true) :
    db.Reached p name lobe filters r := by
  have hf := List.mem_of_find?_eq_some hfilter
  have hanchor := List.find?_some hfilter
  simp only [Bool.and_eq_true, decide_eq_true_eq] at hanchor
  obtain ⟨hdict, k, b, hid, hb, -, hdecode⟩ :=
    h.mem_dictionary hname hf hanchor.1 hanchor.2 hdot hzero hr hmatch
  simp only [Db.Reached, hfilter, hprint]
  exact ⟨r.lid, k, b, hdict, hid, hb, hdecode⟩

/-- **The dictionary leads to the one record** of the lobe that can satisfy the conditions. -/
theorem findInLobe_of_anchor (hname : db.catalog.Names name lobe) {f : Filter}
    (hfilter : db.anchorFilter name filters = some f) (hdot : '.' ∉ f.field)
    (hzero : zeroFree (valueOf p f.value) = true)
    (hprint : literalString p f.value = valueToAnchorString p (valueOf p f.value)) :
    ∃ found, db.findInLobe p name filters = .ok found ∧
      ∀ r, r ∈ found.map Prod.fst ↔ r ∈ db.lobeRecords p lobe none ∧
        matchesFilters p r (convertFilters p filters) = true := by
  obtain ⟨found, hfind, hfound⟩ := h.findInLobe_anchor hname hfilter
  exact ⟨found, hfind, fun r => (hfound r).trans (and_iff_left_of_imp fun hr =>
    h.reached_of_anchor hname hfilter hdot hzero hprint hr.1 hr.2)⟩

/-- What a bucket has. -/
lemma mem_findGravityBucket (hname : db.catalog.Names name lobe) {hash : BitVec 48}
    {filters : List CoreFilter} :
    r ∈ (db.findGravityBucket p lobe hash filters).map Prod.fst ↔
      (r ∈ db.lobeRecords p lobe none ∧ matchesFilters p r filters = true) ∧
        ∃ (k : Key) (b : Blob), db.trees.spatial[k]? = some b ∧ keyLobe k = lobe ∧
          gravityHashFromBytes k = hash ∧ db.decode name lobe k b = some r := by
  rw [Db.lobeRecords, mem_map_select, h.lobeNameForId_eq hname, List.mem_map]
  constructor
  · rintro ⟨⟨r, k⟩, hx, rfl⟩
    obtain ⟨b, hmem, hdecode, htest⟩ := mem_select.mp hx
    obtain ⟨hspatial, hrange⟩ := mem_rangeEntries.mp (mem_filter.mp hmem).1
    obtain ⟨rfl, hhash⟩ := (mem_prefixForGravity (h.base.spatial _ _ hspatial).1 lobe
      hash).mp hrange
    rw [h.lobeNameForId_eq hname] at hdecode
    exact ⟨⟨⟨k, b, hspatial, beBytes_keyLobe_prefix (h.base.spatial _ _ hspatial).1, hdecode, rfl⟩,
      htest⟩, k, b, hspatial, rfl, hhash, hdecode⟩
  · rintro ⟨⟨-, htest⟩, k, b, hspatial, rfl, hhash, hdecode⟩
    have hlen := (h.base.spatial _ _ hspatial).1
    refine ⟨(r, k), mem_select.mpr ⟨b, mem_filter.mpr ⟨mem_rangeEntries.mpr ⟨hspatial,
      (mem_prefixForGravity hlen _ hash).mpr ⟨rfl, hhash⟩⟩, by simpa using hlen⟩, ?_, htest⟩, rfl⟩
    rwa [h.lobeNameForId_eq hname]

/-- **A lobe with conditions**: what satisfies them and is where they are looked up. -/
theorem findInLobe_eq (hname : db.catalog.Names name lobe) :
    ∃ found, db.findInLobe p name filters = .ok found ∧
      ∀ r, r ∈ found.map Prod.fst ↔ (r ∈ db.lobeRecords p lobe none ∧
        matchesFilters p r (convertFilters p filters) = true) ∧
          db.Reached p name lobe filters r := by
  cases hfilter : db.anchorFilter name filters with
  | some f => exact h.findInLobe_anchor hname hfilter
  | none =>
    have hget : db.catalog.lobes.get name = some lobe := hname
    rw [findInLobe, hget]
    simp only [Db.Reached, hfilter]
    cases hdetect : detectGravityEq p db.catalog name (convertFilters p filters) with
    | none =>
      refine ⟨_, rfl, fun r => mem_scanLobeFiltered.trans (and_iff_left ?_).symm⟩
      intro spec hash hspec hpin
      rw [detectGravityEq, hspec, bind_some, hpin] at hdetect
      cases hdetect
    | some hash =>
      obtain ⟨spec, hspec, hpin⟩ := bind_eq_some_iff.mp hdetect
      refine ⟨_, rfl, fun r => (h.mem_findGravityBucket hname).trans (and_congr_right fun _ => ?_)⟩
      constructor
      · intro hin spec' hash' hspec' hpin'
        cases hspec.symm.trans hspec'
        cases hpin.symm.trans hpin'
        exact hin
      · exact fun hin => hin spec hash hspec hpin

end Indexed

/-- A query that writes its values as the entries do reaches what satisfies it. -/
lemma Consistent.reached (h : Consistent p db) (hname : db.catalog.Names name lobe)
    (hseen : FlatSeen p db name filters) (hr : r ∈ db.lobeRecords p lobe none)
    (hmatch : matchesFilters p r (convertFilters p filters) = true) :
    db.Reached p name lobe filters r := by
  unfold FlatSeen at hseen
  cases hfilter : db.anchorFilter name filters with
  | some f =>
    rw [hfilter] at hseen
    exact h.reached_of_anchor hname hfilter hseen.1 hseen.2.1 hseen.2.2 hr hmatch
  | none =>
    rw [hfilter] at hseen
    simp only [Db.Reached, hfilter]
    intro spec hash hspec hpin
    rw [hspec, all_some, hpin, isNone_some, Bool.false_or, decide_eq_true_iff] at hseen
    have hfound := mem_scanLobeFiltered.mpr ⟨hr, hmatch⟩
    rw [← h.buckets.find_eq hname hspec hpin hseen] at hfound
    exact ((h.mem_findGravityBucket hname).mp hfound).2

/-- No conditions fix no bucket, except one of a gravity without fields. -/
lemma flatSeen_nil (p : Platform) (db : Db) (name : Text) : FlatSeen p db name [] := by
  show (db.catalog.getGravitySpec name).all _ = true
  cases db.catalog.getGravitySpec name with
  | none => rfl
  | some spec =>
    rw [all_some, Bool.or_eq_true, decide_eq_true_iff]
    cases hfields : spec.fields with
    | nil =>
      refine .inr fun f hf => ?_
      rw [hfields] at hf
      cases hf
    | cons f fs =>
      simp [GravitySpec.pinnedGravityHash, hfields, GravitySpec.pinnedValue, convertFilters]

end

section

variable {p : Platform} {db : Db}

lemma Consistent.resolveFind_nil (h : Consistent p db) (target : FindTarget) :
    match db.denoted p target with
    | .error err => db.resolveFind p target [] = .error err
    | .ok all => ∃ found, db.resolveFind p target [] = .ok found ∧
        ∀ r, r ∈ found.map Prod.fst ↔ r ∈ all := by
  cases target with
  | byLid text =>
    simp only [denoted, resolveFind]
    cases db.findByLid text with
    | error err => rfl
    | ok found => exact ⟨found, rfl, fun r => Iff.rfl⟩
  | lobe name =>
    simp only [denoted, resolveFind]
    cases hlobe : db.catalog.lobes.get name with
    | none => simp [findInLobe, hlobe]
    | some lobe =>
      obtain ⟨found, hfound, hmem⟩ := @Indexed.findInLobe_eq [] p db name lobe h.toIndexed hlobe
      refine ⟨found, hfound, fun r => (hmem r).trans ⟨fun hr => hr.1.1, fun hr => ?_⟩⟩
      exact ⟨⟨hr, rfl⟩, h.reached hlobe (flatSeen_nil p db name) hr rfl⟩

lemma seen_iff {e : FilterExpr} (hflat : asFlatAnd e = some filters) :
    Seen p db target (some e) ↔ ConjunctionSeen p db target e filters := by
  refine ⟨fun hs => hs e filters rfl hflat, fun hs e' filters' he hfilters => ?_⟩
  cases he
  cases hflat.symm.trans hfilters
  exact hs

lemma honoured_iff_of_error {err : XyzError} (h : db.denoted p target = .error err) :
    Honoured p db target e ↔ db.resolveFindExpr p target e = .error err := by
  rw [Honoured, h]

lemma honoured_iff_of_ok {all : List Record} (h : db.denoted p target = .ok all) {found : Found}
    (hfound : db.resolveFindExpr p target e = .ok found) :
    Honoured p db target e ↔
      ∀ r, r ∈ found.map Prod.fst ↔ r ∈ all ∧ recordMatchesOptExpr p r e = true := by
  rw [Honoured, h]
  constructor
  · rintro ⟨found', hfound', hmem⟩
    cases hfound.symm.trans hfound'
    exact hmem
  · exact fun hmem => ⟨found, hfound, hmem⟩

/-- A tree with OR or NOT is walked for all candidates. -/
lemma Consistent.honoured_of_tree (h : Consistent p db)
    (htree : ∀ e' filters, e = some e' → asFlatAnd e' ≠ some filters) :
    Honoured p db target e := by
  have hnil := h.resolveFind_nil target
  cases hden : db.denoted p target with
  | error err =>
    rw [hden] at hnil
    rw [honoured_iff_of_error hden, Db.resolveFindExpr.eq_def]
    cases e with
    | none => exact hnil
    | some e =>
      simp only [eq_none_iff_forall_ne_some.mpr fun filters => htree e filters rfl, hnil, bind,
        Except.bind]
  | ok all =>
    rw [hden] at hnil
    obtain ⟨found, hfound, hmem⟩ := hnil
    cases e with
    | none =>
      have hfind : db.resolveFindExpr p target none = .ok found := hfound
      refine (honoured_iff_of_ok hden hfind).mpr fun r => ?_
      rw [hmem, recordMatchesOptExpr, and_iff_left rfl]
    | some e =>
      have hfind : db.resolveFindExpr p target (some e) =
          .ok (found.filter fun x => recordMatchesOptExpr p x.1 (some e)) := by
        simp only [Db.resolveFindExpr,
          eq_none_iff_forall_ne_some.mpr fun filters => htree e filters rfl, hfound]
        rfl
      refine (honoured_iff_of_ok hden hfind).mpr fun r => ?_
      rw [mem_map_filter (recordMatchesOptExpr p · (some e)), hmem]

/-- The conditions on an identifier are not looked at. -/
lemma honoured_byLid_iff {text : Text} {e : FilterExpr} (hflat : asFlatAnd e = some filters) :
    Honoured p db (.byLid text) (some e) ↔ ConjunctionSeen p db (.byLid text) e filters := by
  have hresolve : db.resolveFindExpr p (.byLid text) (some e) = db.findByLid text := by
    rw [Db.resolveFindExpr, hflat]
    rfl
  rw [ConjunctionSeen]
  cases hfind : db.findByLid text with
  | error err =>
    have hden : db.denoted p (.byLid text) = .error err := by
      rw [denoted, hfind]
      rfl
    refine iff_of_true ((honoured_iff_of_error hden).mpr (hresolve.trans hfind)) fun all hall => ?_
    rw [hden] at hall
    cases hall
  | ok found =>
    have hden : db.denoted p (.byLid text) = .ok (found.map Prod.fst) := by
      rw [denoted, hfind]
      rfl
    rw [honoured_iff_of_ok hden (hresolve.trans hfind), hden]
    constructor
    · intro hmem all hall r hr
      cases hall
      exact ((hmem r).mp hr).2
    · exact fun hall r => ⟨fun hr => ⟨hr, hall _ rfl r hr⟩, fun hr => hr.1⟩

lemma Consistent.honoured_lobe_iff (h : Consistent p db) {name : Text} {e : FilterExpr}
    (hflat : asFlatAnd e = some filters) :
    Honoured p db (.lobe name) (some e) ↔ ConjunctionSeen p db (.lobe name) e filters := by
  have hresolve : db.resolveFindExpr p (.lobe name) (some e) = db.findInLobe p name filters := by
    rw [Db.resolveFindExpr, hflat]
    rfl
  rw [ConjunctionSeen]
  cases hlobe : db.catalog.lobes.get name with
  | none =>
    have hden : db.denoted p (.lobe name) = .error (.lobeNotFound name) := by rw [denoted, hlobe]
    refine iff_of_true ((honoured_iff_of_error hden).mpr ?_) fun lobe hsome => ?_
    · rw [hresolve, findInLobe, hlobe]
    · cases hsome
  | some lobe =>
    have hden : db.denoted p (.lobe name) = .ok (db.lobeRecords p lobe none) := by
      rw [denoted, hlobe]
    obtain ⟨found, hfound, hmem⟩ := @Indexed.findInLobe_eq filters p db name lobe h.toIndexed hlobe
    have hmatch : ∀ r, recordMatchesOptExpr p r (some e) =
        matchesFilters p r (convertFilters p filters) := fun r => matchesCoreExpr_of_flat p r hflat
    rw [honoured_iff_of_ok hden (hresolve.trans hfound)]
    constructor
    · intro hall lobe' hlobe' r hr hm
      cases hlobe'
      exact ((hmem r).mp ((hall r).mpr ⟨hr, hm⟩)).2
    · intro hreached r
      rw [hmem, ← hmatch]
      exact and_iff_left_of_imp fun hr => hreached lobe rfl r hr.1 hr.2

/-- A target with a WHERE is resolved as it should exactly if the WHERE is looked at. -/
lemma Consistent.honoured_iff (h : Consistent p db) :
    Honoured p db target e ↔ Seen p db target e := by
  by_cases hconj : ∃ e' filters, e = some e' ∧ asFlatAnd e' = some filters
  · obtain ⟨e, filters, rfl, hflat⟩ := hconj
    rw [seen_iff hflat]
    cases target with
    | byLid text => exact honoured_byLid_iff hflat
    | lobe name => exact h.honoured_lobe_iff hflat
  · have htree : ∀ e' filters, e = some e' → asFlatAnd e' ≠ some filters :=
      fun e' filters he hflat => hconj ⟨e', filters, he, hflat⟩
    exact iff_of_true (h.honoured_of_tree htree)
      fun e' filters he hflat => absurd hflat (htree e' filters he)

section

variable (h : Honoured p db target e)

include h

lemma Honoured.wanted {found : Found} {k : Key}
    (hfound : db.resolveFindExpr p target e = .ok found) (hr : (r, k) ∈ found) :
    db.Wanted p target e r.lid := by
  unfold Honoured at h
  split at h
  · rw [hfound] at h
    cases h
  · next all hall =>
    obtain ⟨found', hfound', hmem⟩ := h
    cases hfound.symm.trans hfound'
    obtain ⟨hin, hm⟩ := (hmem r).mp (mem_map.mpr ⟨(r, k), hr, rfl⟩)
    exact ⟨all, r, hall, hin, hm, rfl⟩

lemma Honoured.foundBy {l : DbLabel}
    (haim : l.command.aim = some (target, e)) (hr : FoundBy p l db r) :
      db.Wanted p target e r.lid := by
  unfold FoundBy at hr
  cases hl : l.command with
  | set | delete =>
    rw [hl] at hr haim
    obtain ⟨target', found, k, htarget, hfound, hmem⟩ := hr
    simp only [Command.aim, htarget] at haim
    obtain ⟨rfl, rfl⟩ := haim
    exact h.wanted hfound hmem
  | link stmt =>
    rw [hl] at hr haim
    obtain ⟨found, k, hfound, hmem⟩ := hr
    obtain ⟨rfl, rfl⟩ := haim
    exact h.wanted hfound hmem
  | _ =>
    rw [hl] at haim
    cases haim

lemma Honoured.confined (hbase : Base db) {l : DbLabel} (haim : l.command.aim = some (target, e)) :
    ∀ x ∈ changes p db l, Confined (db.Wanted p target e) x.1 x.2 := by
  rintro ⟨db', c⟩ hx
  obtain ⟨-, hf⟩ := changes_facts hbase l (db', c) hx
  have hputs : l.command.puts ≠ true := by
    cases hl : l.command <;> simp [hl, Command.aim, Command.puts] at haim ⊢
  cases c with
  | insert | upsert => exact hputs hf.1
  | set u =>
    obtain ⟨⟨r, hr, hid⟩, -⟩ := hf
    exact ⟨r.lid, h.foundBy haim hr, hid⟩
  | link u =>
    obtain ⟨hlinks, hby, -⟩ := hf
    cases hl : l.command with
    | link stmt =>
      obtain ⟨r, hr, hid⟩ := hby stmt hl
      exact ⟨r.lid, h.foundBy haim hr, hid⟩
    | put stmt => simp [hl, Command.puts] at hputs
    | _ =>
      rw [hl] at hlinks
      exact hlinks.elim
  | delete d => exact h.foundBy haim hf.found
  | _ => trivial

end

/-- **WHERE is honoured** exactly if it is looked at: on a consistent store, a target with a WHERE
is resolved to exactly the records of the target that satisfy the WHERE, and SET, DELETE and LINK
change nothing but what is under the identifiers of these records. -/
theorem where_honoured (p : Platform) {db : Db} (h : Consistent p db) (target : FindTarget)
    (e : Option FilterExpr) :
    (Honoured p db target e ∧ ∀ l : DbLabel, l.command.aim = some (target, e) →
      ∀ x ∈ changes p db l, Confined (db.Wanted p target e) x.1 x.2) ↔ Seen p db target e :=
  (and_iff_left_of_imp fun hwhere _ haim =>
    Honoured.confined hwhere h.base haim).trans h.honoured_iff

/-- A conjunction on a lobe is looked at if it writes its values as the entries do. -/
lemma Consistent.seen (h : Consistent p db) {name : Text} {e : FilterExpr} {filters : List Filter}
    (hflat : asFlatAnd e = some filters) (hseen : FlatSeen p db name filters) :
    Seen p db (.lobe name) (some e) := by
  refine (seen_iff hflat).mpr fun lobe hlobe r hr hmatch => ?_
  rw [recordMatchesOptExpr, matchesFilterExpr, matchesCoreExpr_of_flat p r hflat] at hmatch
  exact h.reached hlobe hseen hr hmatch

end

lemma Bucketed.consistent (h : Bucketed p db)
    (hanchors : db.catalog.anchorRegistry.isEmpty = true) (hcache : db.recordCache.isNone = true) :
    Consistent p db := by
  have hno : ∀ name f, db.catalog.isAnchor name f = false := by
    intro name f
    rw [Catalog.isAnchor, ExtTreeMap.isEmpty_iff.mp hanchors, ExtTreeMap.getElem?_empty]
  exact {
    base := h.base
    lobes := h.lobes.inj
    buckets := h.inBuckets
    anchors := fun name _ f _ _ _ _ _ hf => by simp [hno] at hf
    entries := fun name _ f _ _ _ _ _ hf => by simp [hno] at hf
    cache := fun _ _ _ hr => by simp [cached, isNone_iff_eq_none.mp hcache] at hr }

theorem where_honoured_declaredFirst : ∃ db, Consistent .sample db ∧
    Seen .sample db (.lobe "a".toList) (some (equals "k" (.int 1))) ∧
      Honoured .sample db (.lobe "a".toList) (some (equals "k" (.int 1))) := by
  obtain ⟨db, hreach, hanchors, hcache, hseen⟩ : ∃ db,
      (dbSys .sample false 8).Reach (GravityInTime .sample) db ∧
        db.catalog.anchorRegistry.isEmpty = true ∧ db.recordCache.isNone = true ∧
          FlatSeen .sample db "a".toList [⟨"k".toList, .eq, .int 1⟩] :=
    TransSys.exists_reach_of_runWith declaredFirst (by decide +kernel)
  have h := (bucketed_of_reach hreach).consistent hanchors hcache
  have hsome := h.seen (e := equals "k" (.int 1)) rfl hseen
  exact ⟨db, h, hsome, ((where_honoured .sample h (.lobe _) (some (equals "k" (.int 1)))).mpr
    hsome).1⟩

/-- The identifier of the first record. -/
def firstLid : Text := Lid.toText (Lid.new 0 3 0 1)

/-- DELETE of the first record, if its value is 2. It is 1. -/
def deleteFirst : DbLabel :=
  clocked 5 (.delete ⟨some (.byLid firstLid), some (equals "k" (.int 2))⟩)

/-- DELETE by identifier removes a record that does not satisfy the WHERE. -/
theorem where_ignored_on_lid : ∃ db, Consistent .sample db ∧
    ¬ Honoured .sample db (.byLid firstLid) (some (equals "k" (.int 2))) ∧
      ¬ ∀ x ∈ changes .sample db deleteFirst,
        Confined (db.Wanted .sample (.byLid firstLid) (some (equals "k" (.int 2)))) x.1 x.2 := by
  obtain ⟨db, hreach, hanchors, hcache, hfound, hdeleted⟩ : ∃ db,
      (dbSys .sample false 8).Reach (GravityInTime .sample) db ∧
        db.catalog.anchorRegistry.isEmpty = true ∧ db.recordCache.isNone = true ∧
          (db.findByLid firstLid).toOption.map (List.map fun x =>
            recordMatchesOptExpr .sample x.1 (some (equals "k" (.int 2)))) = some [false] ∧
          ((changes .sample db deleteFirst).any fun x => x.2 matches .delete _) = true :=
    TransSys.exists_reach_of_runWith declaredFirst (by decide +kernel)
  cases hlid : db.findByLid firstLid with
  | error err => simp [hlid, Except.toOption] at hfound
  | ok found =>
    rw [hlid, Except.toOption, map_some, some.injEq] at hfound
    -- the one record that is found does not satisfy the WHERE
    obtain ⟨x, rfl, hx⟩ := map_eq_singleton_iff.mp hfound
    have hall : db.denoted .sample (.byLid firstLid) = .ok [x.1] := by
      rw [denoted, hlid]
      rfl
    refine ⟨db, (bucketed_of_reach hreach).consistent hanchors hcache, fun h => ?_, fun h => ?_⟩
    · rw [Honoured, hall] at h
      obtain ⟨found, hfound', hmem⟩ := h
      obtain rfl := Except.ok.inj (hlid.symm.trans hfound')
      obtain ⟨-, hm⟩ := (hmem x.1).mp (mem_singleton.mpr rfl)
      rw [hx] at hm
      cases hm
    · obtain ⟨⟨db', c⟩, hc, hdelete⟩ := any_eq_true.mp hdeleted
      have hconf := h _ hc
      cases c with
      | delete d =>
        obtain ⟨all, r, hden, hr, hm, -⟩ := hconf
        obtain rfl := Except.ok.inj (hall.symm.trans hden)
        rw [mem_singleton.mp hr, hx] at hm
        cases hm
      | _ => cases hdelete

end XyzDB.Engine
