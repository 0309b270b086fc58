import XyzDB.Engine.Statements

/-!
# The bucket of a query

A query whose conditions fix the gravity of a lobe reads one bucket instead of the lobe. It finds
all its records there if every record that the gravity applies to lies in its own bucket, which is
the invariant `Bucketed`. SET moves a record to its bucket. The other ways to write keep the
invariant under conditions only: GRAVITY BY and a first star place no records that are there
already, a PUT with LINK goes to the bucket of another record, ON CONFLICT UPDATE leaves a record
where it is, and a batch places its records by the gravity that was declared before it
(`TimelyStatement`, `TimelyChange`).

The query has to name the gravity fields as the writer does: a path with a dot leads into nested
values, and the two float zeros are equal but are not printed alike (`PinsPlainly`).
-/

namespace XyzDB.Engine

open Std (ExtTreeMap)
open Talk (Filter FilterExpr)

open List Option

variable {k : Key} {lobe : UInt16}

/-- No two lobes have one number. -/
structure LobeRegistry.WF (r : LobeRegistry) : Prop where
  inj : ∀ name name' id, r.get name = some id → r.get name' = some id → name = name'
  below : ∀ name id, r.get name = some id → id.toNat < r.byName.size
  next : r.nextId = UInt16.ofNat r.byName.size

variable {name : Text}

namespace LobeRegistry

lemma wf_empty : empty.WF where
  inj _ _ _ h := by simp [empty, get] at h
  below _ _ h := by simp [empty, get] at h
  next := rfl

lemma get_insert {r : LobeRegistry} {x : Text} {id next : UInt16} :
    (⟨r.byName.insert name id, next⟩ : LobeRegistry).get x =
      if name = x then some id else r.get x :=
  OrdMap.getElem?_insert

lemma WF.getOrCreate {r : LobeRegistry} (h : r.WF) (hroom : r.byName.size < 2 ^ 16) (name : Text) :
    (r.getOrCreate name).2.WF := by
  unfold LobeRegistry.getOrCreate
  split
  · exact h
  · next hnone =>
    have hnext : r.nextId.toNat = r.byName.size := by
      rw [h.next]
      exact Nat.mod_eq_of_lt hroom
    have hsize : (r.byName.insert name r.nextId).size = r.byName.size + 1 := by
      rw [ExtTreeMap.size_insert]
      rw [ExtTreeMap.contains_eq_isSome_getElem?, hnone]
      simp
    have hfresh : ∀ x id, r.get x = some id → id ≠ r.nextId := by
      intro x id hid heq
      have := h.below x id hid
      rw [heq, hnext] at this
      exact lt_irrefl _ this
    constructor
    · intro x y id hx hy
      rw [get_insert] at hx hy
      split at hx <;> split at hy
      · next hnx hny => rw [← hnx, ← hny]
      · cases hx
        exact absurd rfl (hfresh y _ hy)
      · cases hy
        exact absurd rfl (hfresh x _ hx)
      · exact h.inj x y id hx hy
    · intro x id hx
      rw [hsize]
      rw [get_insert] at hx
      split at hx
      · cases hx
        rw [hnext]
        exact lt_add_one _
      · exact (h.below x id hx).trans (lt_add_one _)
    · show r.nextId + 1 = UInt16.ofNat (r.byName.insert name r.nextId).size
      rw [hsize, h.next]
      exact UInt16.toNat_inj.mp (by simp)

end LobeRegistry

/-- The statements of the histories. -/
def Command.plain : Command → Bool
  | .lobe _ | .anchor _ | .gravity _ | .put _ | .putBatch _ | .bulkInsert _ _ | .set _ | .delete _
  | .purge _ => true
  | _ => false

section

variable (p : Platform)

variable (db : Db)

/-- No record is put by LINK, and a batch has stars only where the gravity is declared. -/
def TimelyStatement (l : DbLabel) : Prop :=
  match l.command with
  | .put stmt => stmt.link = none
  | .putBatch stmt => stmt.link = none ∧ ((db.catalog.getGravitySpec stmt.lobe).isSome ∨
      ∀ given ∈ stmt.records, ∀ f ∈ given, f.gravity = false)
  | _ => True

/-- A gravity is declared for a lobe without records, an update keeps the bucket of its record, and
the numbers of lobes stay below the reserved keys of the dictionary, which begin with `0xFFF5`. -/
def TimelyChange : Change → Prop
  | .lobe _ => db.catalog.lobes.byName.size < 0xFFF5
  | .gravity _ id _ => (db.lobeEntries id).isEmpty = true
  | .upsert u => ((db.catalog.getGravitySpec u.old.lobeName).all fun spec =>
      spec.computeHash p u.record.fields == spec.computeHash p u.old.fields) = true
  | _ => True

instance (l : DbLabel) : Decidable (TimelyStatement db l) := by
  obtain ⟨tick, command⟩ := l
  unfold TimelyStatement
  cases command <;> infer_instance

instance (c : Change) : Decidable (TimelyChange p db c) := by
  apply Change.casesOn (motive := fun c => Decidable (TimelyChange p db c)) c <;> intros <;>
    dsimp only [TimelyChange] <;> infer_instance

/-- Gravity is declared in time. -/
abbrev GravityInTime (l : DbLabel) : Prop :=
  (l.command.plain = true ∧ TimelyStatement db l) ∧ ∀ x ∈ changes p db l, TimelyChange p x.1 x.2

end

/-- Every record that the gravity of its lobe applies to is in its bucket. -/
structure Bucketed (p : Platform) (db : Db) : Prop where
  base : Base db
  lobes : db.catalog.lobes.WF
  noVectors : ∀ name, db.catalog.getVectorSpec name = none
  noSatellites : ∀ name : Text, db.catalog.satelliteSpecs[name]? = none
  placed : ∀ k b, db.trees.spatial[k]? = some b → ∃ payload, b = .v1 payload ∧
    ∀ name spec h, db.catalog.Names name (keyLobe k) → db.catalog.getGravitySpec name = some spec →
      spec.computeHash p payload.fields = some h → gravityHashFromBytes k = h

lemma bucketed_empty (p : Platform) (cached : Bool) (spillLimit : ℕ) :
    Bucketed p (.empty cached spillLimit) where
  base := base_empty cached spillLimit
  lobes := LobeRegistry.wf_empty
  noVectors _ := rfl
  noSatellites _ := rfl
  placed _ _ h := by simp [Db.empty, Trees.empty] at h

lemma beBytes_keyLobe_prefix (h : k.length = spatialKeySize) : beBytes (keyLobe k) <+: k := by
  rw [beBytes_keyLobe (by rw [h, spatialKeySize]; omega)]
  exact take_prefix 2 k

lemma EncodedIn.eq_of_no_search {db' : Db} {r : Record} {x : Encoding}
    (h : EncodedIn p db db' lobe r x) (hsearch : db'.catalog.searchField r.lobeName = none) :
    x = ⟨serializeRecord r, none, none⟩ := by
  obtain ⟨reg, reg', -, henc, -⟩ := h
  rw [hsearch] at henc
  exact henc.1

section

variable {p : Platform} {start db : Db} {l : DbLabel} {c : Change}

section

variable (h : TimelyStatement start l)

include h

lemma TimelyStatement.not_linked (hlinked : (∃ stmt, l.command = .put stmt ∧ stmt.link.isSome) ∨
      ∃ stmt, l.command = .putBatch stmt ∧ stmt.link.isSome) : False := by
  rcases hlinked with ⟨stmt, hl, hlink⟩ | ⟨stmt, hl, hlink⟩
  · simp only [TimelyStatement, hl] at h
    simp [h] at hlink
  · simp only [TimelyStatement, hl] at h
    simp [h.1] at hlink

lemma TimelyStatement.not_starred (hstarred : l.command.StarredBatch start) : False := by
  cases hl : l.command with
  | putBatch stmt =>
    rw [hl] at hstarred
    obtain ⟨hnone, given, hgiven, f, hf, hstar⟩ := hstarred
    simp only [TimelyStatement, hl] at h
    rcases h.2 with hspec | hno
    · simp [hnone] at hspec
    · simp [hno given hgiven f hf] at hstar
  | _ =>
    rw [hl] at hstarred
    exact hstarred

lemma TimelyStatement.not_links (hplain : l.command.plain = true)
    (hlinks : l.command.Links) : False := by
  cases hl : l.command with
  | put stmt => exact h.not_linked (.inl ⟨stmt, hl, by rw [hl] at hlinks; exact hlinks⟩)
  | link stmt => simp [hl, Command.plain] at hplain
  | _ =>
    rw [hl] at hlinks
    exact hlinks

end

variable (h : Bucketed p db)

include h

lemma Bucketed.searchField (name : Text) : db.catalog.searchField name = none := by
  rw [Catalog.searchField, h.noVectors]
  rfl

lemma Bucketed.placed_old (hf : Facts p (Bucketed p) l start db c)
    (hc : TimelyChange p db c) (hlobes : (db.apply p c).catalog.lobes.WF) {b : Blob}
    (hk : db.trees.spatial[k]? = some b) :
    ∃ payload, b = .v1 payload ∧ ∀ name spec hash, (db.apply p c).catalog.Names name (keyLobe k) →
      (db.apply p c).catalog.getGravitySpec name = some spec →
        spec.computeHash p payload.fields = some hash → gravityHashFromBytes k = hash := by
  obtain ⟨payload, rfl, hplaced⟩ := h.placed k b hk
  obtain ⟨hlen, -, known, hknown⟩ := h.base.spatial k _ hk
  refine ⟨payload, rfl, fun name spec hash hname hspec hhash => ?_⟩
  obtain rfl : name = known := hlobes.inj _ _ _ hname (names_apply hknown)
  refine hplaced name spec hash hknown ?_ hhash
  cases c with
  | gravity lobe id spec' =>
    rw [← hspec]
    show db.catalog.gravitySpecs[name]? = (db.catalog.gravitySpecs.insert lobe spec')[name]?
    rw [OrdMap.getElem?_insert, if_neg]
    -- the lobe that gets its gravity now has no records
    rintro rfl
    have hid : some id = some (keyLobe k) := hf.2.symm.trans hknown
    have hempty : db.lobeEntries id = [] := isEmpty_iff.mp hc
    have hmem : (k, Blob.v1 payload) ∈ db.lobeEntries id := by
      refine mem_lobeEntries.mpr ⟨hk, ?_⟩
      rw [some.inj hid]
      exact beBytes_keyLobe_prefix hlen
    rw [hempty] at hmem
    cases hmem
  | _ => exact hspec

lemma Bucketed.placed_new (hplain : l.command.plain = true)
    (hok : TimelyStatement start l) (hf : Facts p (Bucketed p) l start db c)
    (hc : TimelyChange p db c) {b : Blob} (hk : (k, some b) ∈ c.spatialWrites) :
    ∃ payload, b = .v1 payload ∧ ∀ name spec hash, db.catalog.Names name (keyLobe k) →
      db.catalog.getGravitySpec name = some spec →
        spec.computeHash p payload.fields = some hash → gravityHashFromBytes k = hash := by
  -- without a search field the blob has all the fields
  have hencoded : ∀ {db₀ lobe r x}, EncodedIn p db₀ db lobe r x →
      x.blob = .v1 ⟨r.lid, r.fields, r.createdAt, r.updatedAt⟩ := fun henc => by
    rw [henc.eq_of_no_search (h.searchField _)]
    rfl
  cases c with
  | insert xs =>
    -- neither linked nor starred, so the hash is that of the spec the lobe has now
    obtain ⟨x, hx, heq⟩ := mem_map.mp hk
    cases heq
    obtain ⟨-, db₀, -, -, hall⟩ := hf
    have hins := hall.each x hx
    refine ⟨_, hencoded hins.encoded, fun name spec hash hname hspec hhash => ?_⟩
    rw [Insertion.bytes, SpatialKey.keyLobe_toBytes] at hname
    obtain rfl := h.lobes.inj _ _ _ hname hins.names
    have hlinked : x.linked = false :=
      Bool.eq_false_iff.mpr fun hl => hok.not_linked (hall.linked x hx hl)
    rw [Insertion.bytes, SpatialKey.gravityHashFromBytes_toBytes]
    refine hins.hash hlinked hash ?_
    rcases hall.spec x hx hlinked with hcur | ⟨-, hstarred⟩
    · rw [hcur, hspec]
      exact hhash
    · exact (hok.not_starred hstarred).elim
  | upsert u =>
    -- the key stays, and the gravity of the new fields is that of the old ones
    obtain ⟨-, db₀, hi, hquiet, hr, hnone, -⟩ := hf
    obtain ⟨rfl, rfl⟩ : k = u.oldKey ∧ b = u.encoded.blob := by
      simpa [Change.spatialWrites, Revision.key, hnone] using hk
    refine ⟨_, hencoded hr.encoded, fun name spec hash hname hspec hhash => ?_⟩
    obtain ⟨payload, hblob, hplaced⟩ := hi.placed _ _ hr.blob
    have hnames := hquiet.later.names_iff.mpr hr.names
    obtain rfl := h.lobes.inj _ _ _ hname hnames
    rw [TimelyChange, hspec, all_some, beq_iff_eq] at hc
    have hold : u.old.fields = payload.fields := by
      have hdecoded := hr.decoded
      rw [hblob, decode_v1] at hdecoded
      split at hdecoded
      · rw [← some.inj hdecoded]
      · cases hdecoded
    refine hplaced _ spec hash hr.names ?_ ?_
    · rw [← hspec, Catalog.getGravitySpec, Catalog.getGravitySpec, hquiet.gravitySpecs]
    · rw [← hold, ← hc]
      exact hhash
  | set u =>
    -- the key is the old one just when its hash is that of the new fields
    obtain ⟨-, db₀, hi, hquiet, hr, hplaced, -⟩ := hf
    obtain ⟨rfl, rfl⟩ : k = u.key ∧ b = u.encoded.blob := by simpa [Change.spatialWrites] using hk
    refine ⟨_, hencoded hr.encoded, fun name spec hash hname hspec hhash => ?_⟩
    have hnames := hquiet.later.names_iff.mpr hr.names
    rw [(hr.key hi.base hplaced.lobeId).2.1] at hname
    obtain rfl := h.lobes.inj _ _ _ hname hnames
    have hfor : gravityHashFor p db.catalog u.old.lobeName u.record.fields = hash := by
      rw [gravityHashFor, hspec, bind_some, hhash, getD_some]
    unfold Placed at hplaced
    cases hkey : u.newKey with
    | none =>
      rw [hkey] at hplaced
      rw [Revision.key, hkey, ← hfor]
      exact hplaced.1.symm
    | some key =>
      rw [hkey] at hplaced
      rw [Revision.key, hkey, ← hfor]
      exact (SpatialKey.gravityHashFromBytes_toBytes key).trans hplaced.2.1
  | link u => exact (hok.not_links hplain hf.1).elim
  | delete d => simp [Change.spatialWrites] at hk
  | _ => cases hk

/-- **One change.** -/
theorem Bucketed.apply (hplain : l.command.plain = true)
    (hok : TimelyStatement start l) (hf : Facts p (Bucketed p) l start db c)
    (hc : TimelyChange p db c) : Bucketed p (db.apply p c) := by
  have hlobes : (db.apply p c).catalog.lobes.WF := by
    cases c with
    | lobe name => exact h.lobes.getOrCreate (lt_trans hc (by decide)) name
    | _ => exact h.lobes
  refine ⟨h.base.apply (fun _ h => h.base) hf, hlobes, ?_, ?_, ?_⟩
  · cases c with
    | vector lobe spec =>
      rcases hf.2 with ⟨-, -, stmt, hl⟩ | ⟨f, d, hspec, -⟩
      · simp [hl, Command.plain] at hplain
      · rw [h.noVectors] at hspec
        cases hspec
    | _ => exact h.noVectors
  · cases c with
    | satellite lobe field =>
      obtain ⟨⟨stmt, hl⟩, -⟩ := hf
      simp [hl, Command.plain] at hplain
    | _ => exact h.noSatellites
  · intro k b hk
    rw [Db.spatial_apply] at hk
    rcases OrdMap.getElem?_putAll_eq_some hk with hk | hk
    · exact h.placed_old hf hc hlobes hk
    · obtain ⟨payload, hb, hplaced⟩ := h.placed_new hplain hok hf hc hk
      refine ⟨payload, hb, ?_⟩
      cases c with
      | insert | upsert | set | link | delete => exact hplaced
      | _ => cases hk

end

lemma bucketed_of_reach {cached : Bool} {spillLimit : ℕ}
    (h : (dbSys p cached spillLimit).Reach (GravityInTime p) db) : Bucketed p db :=
  history_invariant (bucketed_empty p cached spillLimit) (fun _ h => h.base)
    (fun _ _ _ _ hok hJ hf hc => hJ.apply hok.1 hok.2 hf hc) h

/-! ### Completeness -/

section

variable (p : Platform)

/-- The records of a lobe behind a key, with their keys. -/
def Db.lobeAfter (db : Db) (lobe : UInt16) (e : Option FilterExpr) (after : Option Key) : Found :=
  (db.select lobe (recordMatchesOptExpr p · e) (db.lobeEntries lobe)).filter fun x =>
    after.all fun k => decide (k < x.2)

/-- The ways to read a bucket return what the ways to read the lobe return: SCAN and AGGREGATE,
FIND, and FIND page by page. -/
structure BucketComplete (db : Db) (lobe : UInt16) (hash : BitVec 48) (e : FilterExpr)
    (filters : List CoreFilter) : Prop where
  scan : db.bucketRecords p lobe hash (some e) = db.lobeRecords p lobe (some e)
  find : db.findGravityBucket p lobe hash filters = db.scanLobeFiltered p lobe filters
  page : ∀ limit after page, findGravityPaginated p db lobe hash (some e) limit after = .ok page →
    page.records = ((db.lobeAfter p lobe (some e) after).take limit).map Prod.fst ∧
      page.hasMore = decide (limit < (db.lobeAfter p lobe (some e) after).length)

/-- Every conjunction that fixes a bucket finds its records there. -/
def GravityComplete (db : Db) : Prop :=
  ∀ name lobe e filters hash, db.catalog.Names name lobe → asFlatAnd e = some filters →
    detectGravityEq p db.catalog name (convertFilters p filters) = some hash →
      BucketComplete p db lobe hash e (convertFilters p filters)

end

section

variable {p : Platform} {db : Db}

lemma select_filter_congr {test : Record → Bool} {a b : Key × Blob → Bool}
    (h : ∀ x ∈ db.trees.spatial.toList,
      ∀ r, db.decode (db.catalog.lobeNameForId lobe) lobe x.1 x.2 = some r → test r = true →
        a x = b x) :
    db.select lobe test (db.trees.spatial.toList.filter a) =
      db.select lobe test (db.trees.spatial.toList.filter b) := by
  rw [Db.select, Db.select, filterMap_filter, filterMap_filter]
  refine filterMap_congr fun x hx => ?_
  cases hr : db.decode (db.catalog.lobeNameForId lobe) lobe x.1 x.2 with
  | none => simp
  | some r =>
    by_cases htest : test r = true
    · rw [h x hx r hr htest]
    · simp [htest]

/-- Every record that the gravity of its lobe applies to is in its bucket. -/
structure InBuckets (p : Platform) (db : Db) : Prop where
  keys : ∀ (k : Key) b, db.trees.spatial[k]? = some b → k.length = spatialKeySize
  placed : ∀ (k : Key) b name spec r h, db.trees.spatial[k]? = some b →
    db.catalog.Names name (keyLobe k) →
    db.catalog.getGravitySpec name = some spec →
      db.decode (db.catalog.lobeNameForId (keyLobe k)) (keyLobe k) k b = some r →
        spec.computeHash p r.fields = some h → gravityHashFromBytes k = h

lemma Bucketed.inBuckets (h : Bucketed p db) : InBuckets p db where
  keys k b hk := (h.base.spatial k b hk).1
  placed k b name spec r hash hk hname hspec hr hhash := by
    obtain ⟨payload, rfl, hplaced⟩ := h.placed k b hk
    refine hplaced name spec hash hname hspec ?_
    rw [decode_v1] at hr
    split at hr <;> cases hr
    exact hhash

variable {spec : GravitySpec} {hash : BitVec 48}

lemma copyKey_of_length (h : k.length = spatialKeySize) : copyKey k = k := by
  simp [copyKey, h]

section

variable (h : InBuckets p db) {filters : List CoreFilter} (hname : db.catalog.Names name lobe)
  (hspec : db.catalog.getGravitySpec name = some spec)
  (hpin : spec.pinnedGravityHash p filters = some hash) (hplain : spec.PinsPlainly filters)

include h hname hspec hpin hplain

/-- The entries of a bucket, among those whose record a query wants. -/
lemma InBuckets.mem_range {x : Key × Blob} (hx : x ∈ db.trees.spatial.toList) {r : Record}
    (hr : db.decode (db.catalog.lobeNameForId lobe) lobe x.1 x.2 = some r)
    (hmatch : matchesFilters p r filters = true) :
    (SpatialKey.prefixForGravity lobe hash).1 ≤ x.1 ∧
      x.1 ≤ (SpatialKey.prefixForGravity lobe hash).2 ↔
      beBytes lobe <+: x.1 := by
  have hspatial : db.trees.spatial[x.1]? = some x.2 :=
    ExtTreeMap.mem_toList_iff_getElem?_eq_some.mp hx
  have hlen := h.keys _ _ hspatial
  rw [mem_prefixForGravity hlen]
  constructor
  · rintro ⟨rfl, -⟩
    exact beBytes_keyLobe_prefix hlen
  · intro hprefix
    obtain rfl := keyLobe_of_prefix hprefix
    exact ⟨rfl, h.placed _ _ name spec r hash hspatial hname hspec hr
      (GravitySpec.computeHash_of_matches hplain hmatch hpin)⟩

lemma InBuckets.find_eq :
    db.findGravityBucket p lobe hash filters = db.scanLobeFiltered p lobe filters := by
  rw [Db.findGravityBucket, Db.scanLobeFiltered, Db.rangeEntries, List.filter_filter,
    List.map_congr_left (g := id), List.map_id]
  · refine select_filter_congr fun x hx r hr hm => ?_
    have hlen := h.keys _ _ (ExtTreeMap.mem_toList_iff_getElem?_eq_some.mp hx)
    rw [Bool.eq_iff_iff, Bool.and_eq_true, Bool.and_eq_true, decide_eq_true_iff,
      decide_eq_true_iff, h.mem_range hname hspec hpin hplain hx hr hm,
      hlen]
    simp
  · intro x hx
    obtain ⟨b, hmem, -⟩ := mem_select.mp hx
    obtain ⟨hmem, -⟩ := List.mem_filter.mp hmem
    rw [copyKey_of_length (h.keys _ _ (ExtTreeMap.mem_toList_iff_getElem?_eq_some.mp hmem))]
    rfl

end

lemma select_filter_key {test : Record → Bool} (g : Key → Bool) (entries : List (Key × Blob)) :
    (db.select lobe test entries).filter (fun x => g x.2) =
      db.select lobe test (entries.filter fun x => g x.1) := by
  rw [Db.select, Db.select, filter_filterMap, filterMap_filter]
  refine filterMap_congr fun x _ => ?_
  cases db.decode (db.catalog.lobeNameForId lobe) lobe x.1 x.2 with
  | none => simp
  | some r => cases ht : test r <;> cases hg : g x.1 <;> simp [ht, hg]

/-- **The bucket is complete** for a conjunction that names the gravity fields plainly. -/
theorem Bucketed.complete (h : Bucketed p db) {e : FilterExpr} {filters : List Filter}
    (hname : db.catalog.Names name lobe) (hflat : asFlatAnd e = some filters)
    (hspec : db.catalog.getGravitySpec name = some spec)
    (hpin : spec.pinnedGravityHash p (convertFilters p filters) = some hash)
    (hplain : spec.PinsPlainly (convertFilters p filters)) :
    BucketComplete p db lobe hash e (convertFilters p filters) := by
  have htest : ∀ r, recordMatchesOptExpr p r (some e) =
    matchesFilters p r (convertFilters p filters) :=
    fun r => matchesCoreExpr_of_flat p r hflat
  -- a record that matches lies in the bucket
  have hrange := fun x hx r hr hm =>
    h.inBuckets.mem_range hname hspec hpin hplain (x := x) hx (r := r) hr hm
  have hscanRange : resolveGravityScanRange p db.catalog (db.catalog.lobeNameForId lobe) lobe hash
      (some e) = SpatialKey.prefixForGravity lobe hash := by
    simp [resolveGravityScanRange, detectSatelliteEq, h.noSatellites]
  refine ⟨?_, h.inBuckets.find_eq hname hspec hpin hplain, ?_⟩
  · rw [Db.bucketRecords, hscanRange]
    refine congrArg _ (select_filter_congr fun x hx r hr hm => ?_)
    rw [htest] at hm
    rw [Bool.eq_iff_iff, Bool.and_eq_true, decide_eq_true_iff, decide_eq_true_iff,
      hrange x hx r hr hm, List.isPrefixOf_iff_prefix]
  · intro limit after page hpage
    -- a page: `lower` stands for the place where the scan goes on after the last key
    have hfound : ∀ lower : Key, (∀ x : Key × Blob, beBytes lobe <+: x.1 →
          (SpatialKey.prefixForGravity lobe hash).1 ≤ x.1 →
            (lower ≤ x.1 ↔ (after.all fun k => decide (k < x.1)) = true)) →
        (∀ x : Key, lower ≤ x → (SpatialKey.prefixForGravity lobe hash).1 ≤ x) →
        db.select lobe (recordMatchesOptExpr p · (some e))
            (db.rangeEntries (lower, (SpatialKey.prefixForGravity lobe hash).2)) =
          db.lobeAfter p lobe (some e) after := by
      intro lower hlower hleast
      rw [Db.lobeAfter, select_filter_key (fun k' => after.all fun k => decide (k < k')),
        Db.lobeEntries, List.filter_filter]
      refine select_filter_congr fun x hx r hr hm => ?_
      rw [htest] at hm
      have hiff := hrange x hx r hr hm
      rw [Bool.eq_iff_iff, Bool.and_eq_true, Bool.and_eq_true, decide_eq_true_iff,
        decide_eq_true_iff, List.isPrefixOf_iff_prefix]
      constructor
      · rintro ⟨hlo, hhi⟩
        have hprefix := hiff.mp ⟨hleast _ hlo, hhi⟩
        exact ⟨(hlower x hprefix (hleast _ hlo)).mp hlo, hprefix⟩
      · rintro ⟨hafter, hprefix⟩
        obtain ⟨hle, hhi⟩ := hiff.mpr hprefix
        exact ⟨(hlower x hprefix hle).mpr hafter, hhi⟩
    unfold findGravityPaginated at hpage
    dsimp only at hpage
    split at hpage
    · rw [← Except.ok.inj hpage, hfound]
      · exact ⟨rfl, rfl⟩
      · exact fun x _ hle => by simp [hle]
      · exact fun x hx => hx
    · next key =>
      split at hpage
      · next hin =>
        rw [← Except.ok.inj hpage, hfound]
        · exact ⟨rfl, rfl⟩
        · exact fun x _ _ => by rw [ByteRange.append_zero_le_iff, Option.all_some,
            decide_eq_true_iff]
        · intro x hx
          exact List.le_trans hin.2.1 (List.le_of_lt (ByteRange.append_zero_le_iff.mp hx))
      · cases hpage

end

/-- **Gravity reads are complete.** In every history in which gravity is declared in time, a
conjunction that fixes a bucket, and names the gravity fields plainly, finds exactly its records
there. -/
theorem gravity_reads_complete (p : Platform) (cached : Bool) (spillLimit : ℕ) {db : Db}
    (h : (dbSys p cached spillLimit).Reach (GravityInTime p) db) {name : Text} {lobe : UInt16}
    {e : FilterExpr} {filters : List Filter} {spec : GravitySpec} {hash : BitVec 48}
    (hname : db.catalog.Names name lobe) (hflat : asFlatAnd e = some filters)
    (hspec : db.catalog.getGravitySpec name = some spec)
    (hplain : spec.PinsPlainly (convertFilters p filters))
    (hdetect : detectGravityEq p db.catalog name (convertFilters p filters) = some hash) :
    BucketComplete p db lobe hash e (convertFilters p filters) := by
  rw [detectGravityEq, hspec] at hdetect
  exact (bucketed_of_reach h).complete hname hflat hspec hdetect hplain

/-- Gravity is declared for a lobe, and two records follow. -/
def declaredFirst : List DbLabel :=
  [clocked 1 (.lobe ⟨"a".toList, none⟩), clocked 2 (.gravity ⟨"a".toList, .raw "k".toList⟩),
    clocked 3 (putIn "a" [unstarred "k" (.int 1)]), clocked 4 (putIn "a" [unstarred "k" (.int 2)])]

theorem gravity_reads_complete_declaredFirst : ∃ db,
    (dbSys .sample false 8).Reach (GravityInTime .sample) db ∧
      (db.lobeRecords .sample 0 (some (equals "k" (.int 1)))).length = 1 ∧
        ∃ hash, BucketComplete .sample db 0 hash (equals "k" (.int 1))
          (convertFilters .sample [⟨"k".toList, .eq, .int 1⟩]) := by
  obtain ⟨db, hreach, hname, hspec, hlen, hdetect⟩ : ∃ db,
      (dbSys .sample false 8).Reach (GravityInTime .sample) db ∧
        db.catalog.lobes.get "a".toList = some 0 ∧
        db.catalog.getGravitySpec "a".toList = some (.raw "k".toList) ∧
        (db.lobeRecords .sample 0 (some (equals "k" (.int 1)))).length = 1 ∧
        (detectGravityEq .sample db.catalog "a".toList
          (convertFilters .sample [⟨"k".toList, .eq, .int 1⟩])).isSome = true :=
    TransSys.exists_reach_of_runWith declaredFirst (by decide +kernel)
  obtain ⟨hash, hdetect⟩ := isSome_iff_exists.mp hdetect
  exact ⟨db, hreach, hlen, hash,
    gravity_reads_complete .sample false 8 hreach hname rfl hspec (by decide) hdetect⟩

/-- Gravity is declared for a lobe that has a record. -/
def declaredLate : List DbLabel :=
  [clocked 1 (putIn "a" [unstarred "k" (.int 1)]),
    clocked 2 (.gravity ⟨"a".toList, .raw "k".toList⟩)]

/-- A record that was put before the gravity was declared is not found in the bucket of its
value. -/
theorem late_gravity_hides_record : ∃ db,
    (dbSys .sample false 8).Reach (fun _ l => l.command.plain = true) db ∧
      ¬ GravityComplete .sample db := by
  obtain ⟨db, hreach, hname, hdetect, hlobe, hbucket⟩ : ∃ db,
      (dbSys .sample false 8).Reach (fun _ l => l.command.plain = true) db ∧
        db.catalog.lobes.get "a".toList = some 0 ∧
        detectGravityEq .sample db.catalog "a".toList
          (convertFilters .sample [⟨"k".toList, .eq, .int 1⟩]) =
            some (Platform.sample.hash48 "1".toList) ∧
        (db.lobeRecords .sample 0 (some (equals "k" (.int 1)))).length = 1 ∧
        (db.bucketRecords .sample 0 (Platform.sample.hash48 "1".toList)
          (some (equals "k" (.int 1)))).length = 0 :=
    TransSys.exists_reach_of_runWith declaredLate (by decide +kernel)
  refine ⟨db, hreach, fun h => ?_⟩
  have hscan := (h _ _ _ _ _ hname (show asFlatAnd (equals "k" (.int 1)) = some _ from rfl)
    hdetect).scan
  rw [hscan, hlobe] at hbucket
  cases hbucket

end XyzDB.Engine
