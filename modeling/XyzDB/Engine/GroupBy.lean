import XyzDB.Engine.Buckets
import XyzDB.Engine.Keys

/-!
# Grouped and streamed scans

SCAN with GROUP BY and AGGREGATE, and the SCAN of the chunked wire formats, go through the entries
themselves and test the flattened WHERE, which has no conditions at all for a tree with OR or NOT.
They read what satisfies the WHERE (`grouped_where_honoured`) exactly if the tree is flat or the
records that are reached satisfy it anyway, and if a bucket that the WHERE fixes has all of them.

A group is kept under a text, the keys of its values with bars between them. Null is keyed like an
absent field, bytes, lists, maps and vectors by their length, floats as they are printed (`Alike`),
and a text with a bar in it may spell the keys of the values behind it (`Spells`). Two records are
grouped by their values (`grouped_by_value`) exactly if these do not mislead.
-/

namespace XyzDB.Engine

open Std (ExtTreeMap)
open Talk (ScanStmt)
open List

section

variable (p : Platform) (db : Db) (lobe : UInt16) (stmt : ScanStmt)

namespace Db

/-- The records that `execute_scan_group_aggregate` observes on the primary path. -/
def groupRecords : List Record :=
  let filters := convertFilterExpr p stmt.filterExpr
  let entries :=
    match detectGravityEq p db.catalog stmt.lobe filters with
    | some hash => db.rangeEntries (resolveGravityScanRange p db.catalog
        (db.catalog.lobeNameForId lobe) lobe hash stmt.filterExpr)
    | none => db.lobeEntries lobe
  counted stmt.limit ((db.select lobe (matchesFilters p · filters) entries).map Prod.fst)

/-- The records that `execute_scan_streaming` writes. -/
def streamedRecords : List Record :=
  counted stmt.limit ((db.select lobe (matchesFilters p · (convertFilterExpr p stmt.filterExpr))
    (db.lobeEntries lobe)).map Prod.fst)

end Db

variable {p stmt}

/-- A WHERE that flattens to a conjunction. -/
def flatWhere (e : Option Talk.FilterExpr) : Bool := e.all fun e => (asFlatAnd e).isSome

lemma matchesFilters_convertFilterExpr {e : Option Talk.FilterExpr} (hflat : flatWhere e = true) :
    (matchesFilters p · (convertFilterExpr p e)) = (recordMatchesOptExpr p · e) := by
  funext r
  cases e with
  | none => rfl
  | some e =>
    obtain ⟨fs, hfs⟩ := Option.isSome_iff_exists.mp hflat
    rw [recordMatchesOptExpr, matchesFilterExpr, matchesCoreExpr_of_flat p r hfs, convertFilterExpr,
      filterExprToFlat, hfs, Option.getD_some]

lemma take_filter_eq_iff {α : Type} {q : α → Bool} {l : List α} {n : ℕ} :
    (l.filter q).take n = l.take n ↔ ∀ x ∈ l.take n, q x = true := by
  induction l generalizing n with
  | nil => simp
  | cons a l ih =>
    cases n with
    | zero => simp
    | succ n =>
      by_cases ha : q a = true
      · rw [filter_cons_of_pos ha, take_succ_cons, take_succ_cons, cons_inj_right, ih,
          forall_mem_cons, and_iff_right ha]
      · rw [filter_cons_of_neg ha, take_succ_cons, forall_mem_cons]
        refine iff_of_false (fun h => ha ?_) (fun h => ha h.1)
        have hmem : a ∈ (l.filter q).take (n + 1) := h ▸ mem_cons_self
        exact (mem_filter.mp (mem_of_mem_take hmem)).2

lemma counted_filter_eq_iff {limit : Option ℕ} {q : Record → Bool} {records : List Record} :
    counted limit (records.filter q) = counted limit records ↔
      ∀ r ∈ counted limit records, q r = true := by
  cases limit with
  | none => exact filter_eq_self
  | some n => exact take_filter_eq_iff

/-- Both ends of a range are in it. -/
def inRange (range : Key × Key) (k : Key) : Bool := decide (range.1 ≤ k) && decide (k ≤ range.2)

lemma convertFilterExpr_of_not_flat {e : Option Talk.FilterExpr} (h : ¬ flatWhere e = true) :
    convertFilterExpr p e = [] := by
  cases e with
  | none => rfl
  | some e =>
    rw [flatWhere, Option.all_some, Bool.not_eq_true, Option.isSome_eq_false_iff,
      Option.isNone_iff_eq_none] at h
    rw [convertFilterExpr, filterExprToFlat, h]
    rfl

/-- No conditions fix no bucket. -/
lemma detectGravityEq_nil {c : Catalog} {name : Text}
    (hfields : ∀ spec, c.getGravitySpec name = some spec → spec.fields ≠ []) :
    detectGravityEq p c name [] = none := by
  rw [detectGravityEq]
  cases hspec : c.getGravitySpec name with
  | none => rfl
  | some spec =>
    obtain ⟨f, fs, hf⟩ := exists_cons_of_ne_nil (hfields spec hspec)
    simp [GravitySpec.pinnedGravityHash, hf, GravitySpec.pinnedValue]

variable {db lobe}

/-- The range that a bucket, or a satellite of it, is read in is a part of its lobe. -/
lemma prefix_of_inRange {k : Key} (hk : k.length = spatialKeySize) {c : Catalog} {name : Text}
    {hash : BitVec 48} {e : Option Talk.FilterExpr}
    (h : inRange (resolveGravityScanRange p c name lobe hash e) k = true) :
    beBytes lobe <+: k := by
  have hlobe : beBytes lobe <+: SpatialKey.bucketPrefix lobe hash := by
    rw [SpatialKey.bucketPrefix]
    exact prefix_append _ _
  simp only [inRange, Bool.and_eq_true, decide_eq_true_eq] at h
  rw [resolveGravityScanRange] at h
  split at h
  · next sat _ =>
    rw [SpatialKey.prefixForSatellite, ByteRange.between_iff_prefix (by simp [hk, spatialKeySize])]
      at h
    exact (hlobe.trans (prefix_append _ _)).trans h
  · rw [SpatialKey.prefixForGravity, ByteRange.between_iff_prefix (by simp [hk, spatialKeySize])]
      at h
    exact hlobe.trans h

section

variable (h : Keyed db)

include h

lemma Keyed.rangeEntries_eq {c : Catalog} {name : Text} {hash : BitVec 48}
    {e : Option Talk.FilterExpr} :
    db.rangeEntries (resolveGravityScanRange p c name lobe hash e) = (db.lobeEntries lobe).filter
      fun x => inRange (resolveGravityScanRange p c name lobe hash e) x.1 := by
  rw [Db.rangeEntries, Db.lobeEntries, filter_filter]
  refine filter_congr fun x hx => ?_
  have hspatial := ExtTreeMap.mem_toList_iff_getElem?_eq_some.mp hx
  rw [Bool.eq_iff_iff, Bool.and_eq_true (inRange _ _), isPrefixOf_iff_prefix]
  exact ⟨fun hin => ⟨hin, prefix_of_inRange (h.base.spatial _ _ hspatial).1 hin⟩, fun hin => hin.1⟩

/-- A record is found under the key that its identifier leads to. -/
lemma Keyed.identity_of_select {test : Record → Bool} {x : Record × Key}
    (hx : x ∈ db.select lobe test (db.lobeEntries lobe)) :
    db.trees.identity[x.1.lid]? = some x.2 := by
  obtain ⟨b, hmem, hdecode, -⟩ := mem_select.mp hx
  rw [(decode_eq_some hdecode).1]
  exact h.located _ _ (mem_lobeEntries.mp hmem).1

/-- What is found in a range are the records of the lobe whose identifiers lead there. -/
lemma Keyed.select_range {test : Record → Bool} {c : Catalog} {name : Text} {hash : BitVec 48}
    {e : Option Talk.FilterExpr} :
    (db.select lobe test (db.rangeEntries (resolveGravityScanRange p c name lobe hash e))).map
        Prod.fst =
      ((db.select lobe test (db.lobeEntries lobe)).map Prod.fst).filter fun r =>
        (db.trees.identity[r.lid]?).all
          (inRange (resolveGravityScanRange p c name lobe hash e)) := by
  rw [h.rangeEntries_eq, ← select_filter_key (inRange _), filter_map]
  refine congrArg _ (filter_congr fun x hx => ?_)
  rw [Function.comp_apply, h.identity_of_select hx, Option.all_some]

end

/-- What satisfies a conjunction that names the gravity fields plainly is in the range of the
bucket, when every record is in its bucket. -/
lemma inRange_of_inBuckets (h : Keyed db) (hbuckets : InBuckets p db)
    (hname : db.catalog.Names name lobe) {spec : GravitySpec}
    (hspec : db.catalog.getGravitySpec name = some spec) {hash : BitVec 48}
    {e : Option Talk.FilterExpr} (hflat : flatWhere e = true)
    (hpin : spec.pinnedGravityHash p (convertFilterExpr p e) = some hash)
    (hplain : spec.PinsPlainly (convertFilterExpr p e))
    (hsatellite : db.catalog.satelliteSpecs[db.catalog.lobeNameForId lobe]? = none) {r : Record}
    (hr : r ∈ db.lobeRecords p lobe e) :
    (db.trees.identity[r.lid]?).all (inRange (resolveGravityScanRange p db.catalog
      (db.catalog.lobeNameForId lobe) lobe hash e)) = true := by
  obtain ⟨x, hx, rfl⟩ := mem_map.mp hr
  obtain ⟨b, hmem, hdecode, hmatch⟩ := mem_select.mp hx
  obtain ⟨hspatial, hprefix⟩ := mem_lobeEntries.mp hmem
  rw [h.identity_of_select hx, Option.all_some, inRange, Bool.and_eq_true, decide_eq_true_iff,
    decide_eq_true_iff, resolveGravityScanRange, detectSatelliteEq, hsatellite]
  rw [← congrFun (matchesFilters_convertFilterExpr hflat)] at hmatch
  exact (hbuckets.mem_range hname hspec hpin hplain
    (ExtTreeMap.mem_toList_iff_getElem?_eq_some.mpr hspatial) hdecode hmatch).mpr hprefix

lemma lobeRecords_eq_filter {e : Option Talk.FilterExpr} :
    db.lobeRecords p lobe e =
      (db.lobeRecords p lobe none).filter (recordMatchesOptExpr p · e) := by
  rw [Db.lobeRecords, Db.lobeRecords, filter_map, Db.select, Db.select, filter_filterMap]
  refine congrArg _ (filterMap_congr fun x _ => ?_)
  cases db.decode (db.catalog.lobeNameForId lobe) lobe x.1 x.2 with
  | none => rfl
  | some r =>
    change _ = Option.filter _ (some (r, x.1))
    rw [Option.filter_some]
    rfl

/-- **Grouped and streamed scans honour the WHERE** exactly if it is flat, or the records that are
reached satisfy it, and if they are in the bucket that the WHERE fixes. -/
theorem grouped_where_honoured (h : Keyed db) (lobe : UInt16) (stmt : ScanStmt)
    (hfields : ∀ spec, db.catalog.getGravitySpec stmt.lobe = some spec → spec.fields ≠ []) :
    db.groupRecords p lobe stmt = counted stmt.limit (db.lobeRecords p lobe stmt.filterExpr) ∧
        db.streamedRecords p lobe stmt =
          counted stmt.limit (db.lobeRecords p lobe stmt.filterExpr) ↔
      (flatWhere stmt.filterExpr = true ∨ ∀ r ∈ counted stmt.limit (db.lobeRecords p lobe none),
        recordMatchesOptExpr p r stmt.filterExpr = true) ∧
      ∀ spec hash, db.catalog.getGravitySpec stmt.lobe = some spec →
        spec.pinnedGravityHash p (convertFilterExpr p stmt.filterExpr) = some hash →
          ∀ r ∈ counted stmt.limit (db.lobeRecords p lobe stmt.filterExpr),
            (db.trees.identity[r.lid]?).all (inRange (resolveGravityScanRange p db.catalog
              (db.catalog.lobeNameForId lobe) lobe hash stmt.filterExpr)) = true := by
  rw [Db.groupRecords, Db.streamedRecords]
  by_cases hflat : flatWhere stmt.filterExpr = true
  · -- the test is that of the plain scan; only the bucket can make a difference
    rw [matchesFilters_convertFilterExpr hflat]
    refine (and_iff_left rfl).trans (Iff.trans ?_ (and_iff_right (.inl hflat)).symm)
    cases hdetect : detectGravityEq p db.catalog stmt.lobe
        (convertFilterExpr p stmt.filterExpr) with
    | none =>
      refine iff_of_true rfl fun spec hash hspec hpin => ?_
      rw [detectGravityEq, hspec, Option.bind_some, hpin] at hdetect
      cases hdetect
    | some hash =>
      obtain ⟨spec, hspec, hpin⟩ := Option.bind_eq_some_iff.mp hdetect
      dsimp only
      rw [h.select_range]
      refine counted_filter_eq_iff.trans ⟨fun hin spec' hash' hspec' hpin' => ?_, fun hin => ?_⟩
      · cases hspec.symm.trans hspec'
        cases hpin.symm.trans hpin'
        exact hin
      · exact hin spec hash hspec hpin
  · -- every record of the lobe passes, and no bucket is fixed
    have hnil : convertFilterExpr p stmt.filterExpr = [] := convertFilterExpr_of_not_flat hflat
    have hdetect : detectGravityEq p db.catalog stmt.lobe [] = none := detectGravityEq_nil hfields
    have hall : db.select lobe (matchesFilters p · []) (db.lobeEntries lobe) =
        db.select lobe (recordMatchesOptExpr p · none) (db.lobeEntries lobe) := rfl
    rw [hnil, hdetect, hall, and_self, or_iff_right hflat, and_iff_left]
    · rw [lobeRecords_eq_filter, eq_comm]
      exact counted_filter_eq_iff
    · intro spec hash hspec hpin
      rw [detectGravityEq, hspec, Option.bind_some, hpin] at hdetect
      cases hdetect

end

/-- A SCAN of the lobe `a`. -/
def scanWhere (e : Talk.FilterExpr) : ScanStmt := ⟨"a".toList, some e, none, none, none⟩

/-- Two records, with the keys 1 and 2. -/
def twoKeys : List DbLabel :=
  [clocked 1 (putIn "a" [unstarred "k" (.int 1)]), clocked 2 (putIn "a" [unstarred "k" (.int 2)])]

/-- A bucket is read, with gravity declared in time. -/
theorem grouped_where_honoured_declaredFirst : ∃ db, Keyed db ∧
    (detectGravityEq .sample db.catalog "a".toList
      (convertFilterExpr .sample (some (equals "k" (.int 1))))).isSome = true ∧
    (db.lobeRecords .sample 0 (some (equals "k" (.int 1)))).length = 1 ∧
    db.groupRecords .sample 0 (scanWhere (equals "k" (.int 1))) =
        db.lobeRecords .sample 0 (some (equals "k" (.int 1))) ∧
      db.streamedRecords .sample 0 (scanWhere (equals "k" (.int 1))) =
        db.lobeRecords .sample 0 (some (equals "k" (.int 1))) := by
  obtain ⟨db, hreach, hname, hspec, hdetect, hlen, hsatellite⟩ : ∃ db,
      (dbSys .sample false 8).Reach (fun db l => GravityInTime .sample db l ∧
        ∀ x ∈ changes .sample db l, CountersFit x.1) db ∧
      db.catalog.lobes.get "a".toList = some 0 ∧
      db.catalog.getGravitySpec "a".toList = some (.raw "k".toList) ∧
      (detectGravityEq .sample db.catalog "a".toList
        (convertFilterExpr .sample (some (equals "k" (.int 1))))).isSome = true ∧
      (db.lobeRecords .sample 0 (some (equals "k" (.int 1)))).length = 1 ∧
      db.catalog.satelliteSpecs[db.catalog.lobeNameForId 0]? = none :=
    TransSys.exists_reach_of_runWith declaredFirst (by decide +kernel)
  have hkeyed : Keyed db := keyed_of_reach (hreach.mono fun _ _ h => h.2)
  have hbuckets := (bucketed_of_reach (hreach.mono fun _ _ h => h.1)).inBuckets
  refine ⟨db, hkeyed, hdetect, hlen, (grouped_where_honoured hkeyed 0
    (scanWhere (equals "k" (.int 1))) fun spec h => ?_).mpr
      ⟨.inl (by decide), fun spec hash h hpin r hr => ?_⟩⟩
  · cases hspec.symm.trans h
    decide
  · cases hspec.symm.trans h
    exact inRange_of_inBuckets hkeyed hbuckets hname hspec rfl hpin (by decide +kernel)
      hsatellite hr

/-- Both records are grouped and streamed under `NOT k = 1`. -/
theorem where_tree_ignored : ∃ db, (dbSys .sample false 8).Reach (GravityInTime .sample) db ∧
    (db.groupRecords .sample 0 (scanWhere (.not (equals "k" (.int 1))))).length = 2 ∧
      (db.streamedRecords .sample 0 (scanWhere (.not (equals "k" (.int 1))))).length = 2 ∧
        (db.lobeRecords .sample 0 (some (.not (equals "k" (.int 1))))).length = 1 :=
  TransSys.exists_reach_of_runWith twoKeys (by decide +kernel)

section

variable (debug64 : UInt64 → Text) (groupFields : List Text)

/-- `canonical_key`; a float is printed by `Debug`. -/
def canonicalKey : Option Value → Text
  | none | some .null => ['N']
  | some (.bool b) => ['B', if b then '1' else '0']
  | some (.int n) => 'I' :: displayInt n
  | some (.float f) => 'F' :: debug64 f
  | some (.text s) => 'T' :: s
  | some (.timestamp t) => 'S' :: displayInt t
  | some (.bytes b) => 'X' :: displayInt b.length
  | some (.list l) => 'L' :: displayInt l.length
  | some (.map m) => 'M' :: displayInt m.length
  | some (.vector v) => 'V' :: displayInt v.length

def groupKey (r : Record) : Text :=
  intercalate ['|'] (groupFields.map fun f => canonicalKey debug64 (resolvePath r.fields f))

/-- A group: the values of its first record, and the records its accumulator has observed. -/
structure Group where
  keyVals : Fields
  observed : List Record

/-- `observe_record`. -/
def observeRecord (groups : ExtTreeMap Text Group) (r : Record) : ExtTreeMap Text Group :=
  let key := groupKey debug64 groupFields r
  let group := groups[key]?.getD ⟨.ofList (groupFields.filterMap fun f =>
    (resolvePath r.fields f).map fun v => (f, v)), []⟩
  groups.insert key ⟨group.keyVals, group.observed ++ [r]⟩

def groupsOf (records : List Record) : ExtTreeMap Text Group :=
  records.foldl (observeRecord debug64 groupFields) ∅

def observedAt (groups : ExtTreeMap Text Group) (key : Text) : List Record :=
  (groups[key]?.map Group.observed).getD []

/-- Both are absent, or they are equal values. -/
def SameValue : Option Value → Option Value → Prop
  | none, none => True
  | some v, some w => valueEq v w = true
  | _, _ => False

/-- Both are keyed alike: what is equal, Null and an absent field, two NaN, and bytes, lists, maps
and vectors of one length. -/
def Alike : Option Value → Option Value → Prop
  | none, none | none, some .null | some .null, none | some .null, some .null => True
  | some (.bool a), some (.bool b) => a = b
  | some (.int a), some (.int b) => a = b
  | some (.float a), some (.float b) => a = b ∨ isNan64 a = true ∧ isNan64 b = true
  | some (.text a), some (.text b) => a = b
  | some (.timestamp a), some (.timestamp b) => a = b
  | some (.bytes a), some (.bytes b) => a.length = b.length
  | some (.list a), some (.list b) => a.length = b.length
  | some (.map a), some (.map b) => a.length = b.length
  | some (.vector a), some (.vector b) => a.length = b.length
  | _, _ => False

/-- The debug print of floats has no bars, and tells all but NaN apart. -/
structure DebugFloats : Prop where
  bar : ∀ f, '|' ∉ debug64 f
  eq_iff : ∀ f g, debug64 f = debug64 g ↔ f = g ∨ isNan64 f = true ∧ isNan64 g = true

/-- The keys of some values, with bars between them. -/
def joinedKeys (vs : List (Option Value)) : Text :=
  intercalate ['|'] (vs.map (canonicalKey debug64))

/-- A text of the second list is that of the first with a bar behind it, and what follows the bar,
with the keys of the values after it, spells the keys of the first list's next values. -/
def Spells (vs ws : List (Option Value)) : Prop :=
  ∃ before before' t x v vs' ws', vs = before ++ some (.text t) :: v :: vs' ∧
    ws = before' ++ some (.text (t ++ '|' :: x)) :: ws' ∧ Forall₂ Alike before before' ∧
      intercalate ['|'] (x :: ws'.map (canonicalKey debug64)) = joinedKeys debug64 (v :: vs')

variable {debug64 groupFields}

lemma observedAt_observeRecord (groups : ExtTreeMap Text Group) (r : Record) (key : Text) :
    observedAt (observeRecord debug64 groupFields groups r) key =
      observedAt groups key ++ [r].filter fun x => groupKey debug64 groupFields x = key := by
  simp only [observedAt, observeRecord, OrdMap.getElem?_insert]
  by_cases hkey : groupKey debug64 groupFields r = key
  · subst hkey
    cases groups[groupKey debug64 groupFields r]? <;> simp
  · simp [hkey]

lemma observedAt_foldl (records : List Record) (groups : ExtTreeMap Text Group) (key : Text) :
    observedAt (records.foldl (observeRecord debug64 groupFields) groups) key =
      observedAt groups key ++ records.filter fun x => groupKey debug64 groupFields x = key := by
  induction records generalizing groups with
  | nil => simp
  | cons r records ih =>
    rw [foldl_cons, ih, observedAt_observeRecord, append_assoc, ← filter_append, singleton_append]

lemma mem_observedAt {records : List Record} {r : Record} (hr : r ∈ records) {key : Text} :
    r ∈ observedAt (groupsOf debug64 groupFields records) key ↔
      groupKey debug64 groupFields r = key := by
  rw [groupsOf, observedAt_foldl, mem_append, mem_filter, decide_eq_true_iff]
  simp [observedAt, hr]

lemma groupKey_eq (r : Record) : groupKey debug64 groupFields r =
    joinedKeys debug64 (groupFields.map (resolvePath r.fields)) := by
  rw [groupKey, joinedKeys, map_map]
  rfl

lemma bar_notMem_displayInt (n : ℤ) : '|' ∉ displayInt n := by
  have hnat : ∀ m : ℕ, '|' ∉ m.repr.toList := fun m hm => by
    rw [Nat.repr_eq_ofList_toDigits, String.toList_ofList] at hm
    exact absurd (Nat.isDigit_of_mem_toDigits (by decide) le_rfl hm) (by decide)
  rw [displayInt, Int.toString_eq_repr, Int.repr_eq_if]
  split
  · exact hnat _
  · simpa using hnat _

lemma displayInt_inj {m n : ℤ} : displayInt m = displayInt n ↔ m = n := by
  rw [displayInt, displayInt, String.toList_inj, Int.toString_eq_repr, Int.toString_eq_repr,
    Int.repr_inj]

/-- Only a text has bars in its key. -/
lemma exists_text_of_bar (hdebug : DebugFloats debug64) {v : Option Value}
    (h : '|' ∈ canonicalKey debug64 v) : ∃ s, v = some (.text s) := by
  cases v with
  | none => simp [canonicalKey] at h
  | some v =>
    cases v with
    | text s => exact ⟨s, rfl⟩
    | float f => simp [canonicalKey, hdebug.bar f] at h
    | bool b => cases b <;> simp [canonicalKey] at h
    | _ => simp [canonicalKey, bar_notMem_displayInt] at h

lemma canonicalKey_eq_iff (hdebug : DebugFloats debug64) {v w : Option Value} :
    canonicalKey debug64 v = canonicalKey debug64 w ↔ Alike v w := by
  -- the first letter tells the types apart
  rcases v with - | v <;> rcases w with - | w
  · simp [canonicalKey, Alike]
  · cases w <;> simp [canonicalKey, Alike]
  · cases v <;> simp [canonicalKey, Alike]
  · cases v <;> cases w
    case bool.bool a b => cases a <;> cases b <;> simp [canonicalKey, Alike]
    all_goals simp [canonicalKey, Alike, displayInt_inj, hdebug.eq_iff]

/-- A key that starts with a `T` is that of a text. -/
lemma canonicalKey_eq_text {v : Option Value} {t : Text} (h : canonicalKey debug64 v = 'T' :: t) :
    v = some (.text t) := by
  cases v with
  | none => simp [canonicalKey] at h
  | some v =>
    cases v with
    | text s => rw [(cons.inj h).2]
    | _ => simp [canonicalKey] at h

lemma joinedKeys_cons {v : Option Value} {vs : List (Option Value)} (h : vs ≠ []) :
    joinedKeys debug64 (v :: vs) = canonicalKey debug64 v ++ '|' :: joinedKeys debug64 vs := by
  obtain ⟨w, vs, rfl⟩ := exists_cons_of_ne_nil h
  simp [joinedKeys, intercalate_cons_cons]

lemma joinedKeys_of_alike (hdebug : DebugFloats debug64) {vs ws : List (Option Value)}
    (h : Forall₂ Alike vs ws) : joinedKeys debug64 vs = joinedKeys debug64 ws := by
  have hkeys : vs.map (canonicalKey debug64) = ws.map (canonicalKey debug64) := by
    rw [← forall₂_eq_eq_eq, forall₂_map_left_iff, forall₂_map_right_iff]
    exact h.imp fun _ _ => (canonicalKey_eq_iff hdebug).mpr
  rw [joinedKeys, hkeys, joinedKeys]

/-- A row is spelled by one of its length. -/
lemma Spells.joinedKeys_eq (hdebug : DebugFloats debug64) {vs ws : List (Option Value)}
    (h : Spells debug64 vs ws) (hlen : vs.length = ws.length) :
    joinedKeys debug64 vs = joinedKeys debug64 ws := by
  obtain ⟨before, before', t, x, v, vs, ws, rfl, rfl, hbefore, hspells⟩ := h
  induction hbefore with
  | nil =>
    have hne : ws ≠ [] := by rintro rfl; simp at hlen
    obtain ⟨w, ws, rfl⟩ := exists_cons_of_ne_nil hne
    rw [nil_append, nil_append, joinedKeys_cons (cons_ne_nil _ _), joinedKeys_cons hne, ← hspells]
    simp [canonicalKey, joinedKeys, intercalate_cons_cons]
  | cons hhead _ ih =>
    rw [cons_append, cons_append, joinedKeys_cons (by simp), joinedKeys_cons (by simp),
      ih (by simpa using hlen), (canonicalKey_eq_iff hdebug).mpr hhead]

/-- Where a key goes on behind the end of another, it is a text, and so is the other. -/
lemma eq_or_spells (hdebug : DebugFloats debug64) {v w : Option Value}
    {vs ws : List (Option Value)} {y : Text} (hvs : vs ≠ []) (hws : ws ≠ [])
    (hkey : canonicalKey debug64 w = canonicalKey debug64 v ++ y)
    (hrest : '|' :: joinedKeys debug64 vs = y ++ '|' :: joinedKeys debug64 ws) :
    canonicalKey debug64 w = canonicalKey debug64 v ∧
        joinedKeys debug64 vs = joinedKeys debug64 ws ∨ Spells debug64 (v :: vs) (w :: ws) := by
  cases y with
  | nil => exact .inl ⟨hkey.trans (append_nil _), (cons.inj hrest).2⟩
  | cons c x =>
    rw [cons_append, cons.injEq] at hrest
    obtain ⟨rfl, htail⟩ := hrest
    obtain ⟨s, rfl⟩ := exists_text_of_bar hdebug (v := w) (by rw [hkey]; simp)
    obtain ⟨c, key, hv⟩ : ∃ c key, canonicalKey debug64 v = c :: key := by
      cases v with
      | none => exact ⟨_, _, rfl⟩
      | some v => cases v <;> exact ⟨_, _, rfl⟩
    rw [hv, canonicalKey, cons_append, cons.injEq] at hkey
    obtain ⟨rfl, rfl⟩ := hkey
    obtain ⟨v', vs, rfl⟩ := exists_cons_of_ne_nil hvs
    obtain ⟨w', ws, rfl⟩ := exists_cons_of_ne_nil hws
    refine .inr ⟨[], [], key, x, v', vs, w' :: ws, by rw [canonicalKey_eq_text hv, nil_append], rfl,
      .nil, ?_⟩
    rw [htail]
    simp [joinedKeys, intercalate_cons_cons]

lemma Spells.cons {v w : Option Value} {vs ws : List (Option Value)} (hhead : Alike v w)
    (h : Spells debug64 vs ws) : Spells debug64 (v :: vs) (w :: ws) := by
  obtain ⟨before, before', t, x, v', vs, ws, rfl, rfl, hbefore, hspells⟩ := h
  exact ⟨v :: before, w :: before', t, x, v', vs, ws, rfl, rfl, .cons hhead hbefore, hspells⟩

/-- Two rows have one key exactly if they are alike, or a text of one spells what follows in the
other. -/
lemma joinedKeys_eq_iff (hdebug : DebugFloats debug64) {vs ws : List (Option Value)}
    (hlen : vs.length = ws.length) :
    joinedKeys debug64 vs = joinedKeys debug64 ws ↔
      Forall₂ Alike vs ws ∨ Spells debug64 vs ws ∨ Spells debug64 ws vs := by
  refine ⟨fun h => ?_, ?_⟩
  · induction vs generalizing ws with
    | nil => rw [length_eq_zero_iff.mp hlen.symm]; exact .inl .nil
    | cons v vs ih =>
      obtain ⟨w, ws, rfl⟩ := exists_cons_of_length_eq_add_one hlen.symm
      have hlen : vs.length = ws.length := by simpa using hlen
      by_cases hvs : vs = []
      · obtain rfl := hvs
        obtain rfl := length_eq_zero_iff.mp hlen.symm
        have hkey : canonicalKey debug64 v = canonicalKey debug64 w := by
          simpa [joinedKeys] using h
        exact .inl (.cons ((canonicalKey_eq_iff hdebug).mp hkey) .nil)
      · have hws : ws ≠ [] := by
          rintro rfl
          exact hvs (length_eq_zero_iff.mp hlen)
        -- one of the first keys goes on where the other ends
        rw [joinedKeys_cons hvs, joinedKeys_cons hws] at h
        have hfirst : canonicalKey debug64 v = canonicalKey debug64 w ∧
              joinedKeys debug64 vs = joinedKeys debug64 ws ∨
            Spells debug64 (v :: vs) (w :: ws) ∨ Spells debug64 (w :: ws) (v :: vs) := by
          rcases append_eq_append_iff.mp h with ⟨y, hkey, hrest⟩ | ⟨y, hkey, hrest⟩
          · rcases eq_or_spells hdebug hvs hws hkey hrest with ⟨hkey, htail⟩ | hspells
            · exact .inl ⟨hkey.symm, htail⟩
            · exact .inr (.inl hspells)
          · rcases eq_or_spells hdebug hws hvs hkey hrest with ⟨hkey, htail⟩ | hspells
            · exact .inl ⟨hkey, htail.symm⟩
            · exact .inr (.inr hspells)
        rcases hfirst with ⟨hkey, htail⟩ | hspells
        · have hhead := (canonicalKey_eq_iff hdebug).mp hkey
          have hhead' := (canonicalKey_eq_iff hdebug).mp hkey.symm
          rcases ih hlen htail with h | h | h
          · exact .inl (.cons hhead h)
          · exact .inr (.inl (h.cons hhead))
          · exact .inr (.inr (h.cons hhead'))
        · exact .inr hspells
  · rintro (h | h | h)
    · exact joinedKeys_of_alike hdebug h
    · exact h.joinedKeys_eq hdebug hlen
    · exact (h.joinedKeys_eq hdebug hlen.symm).symm

/-- Rows of which one spells the other differ in a text. -/
lemma Spells.differ {vs ws : List (Option Value)} (h : Spells debug64 vs ws) :
    ¬ Forall₂ SameValue vs ws ∧ ¬ Forall₂ SameValue ws vs := by
  obtain ⟨before, before', t, x, v', vs, ws, rfl, rfl, hbefore, -⟩ := h
  have hlen := hbefore.length_eq
  constructor <;> intro hsame
  · have htext := (forall₂_iff_get.mp hsame).2 before.length (by simp) (by simp [hlen])
    simp [hlen, SameValue, valueEq] at htext
  · have htext := (forall₂_iff_get.mp hsame).2 before'.length (by simp) (by simp [hlen])
    simp [← hlen, SameValue, valueEq] at htext

/-- **GROUP BY groups by value** exactly if no two values that are keyed alike are different, no
two that are equal are keyed differently, and no text spells the keys of other values. -/
theorem grouped_by_value (hdebug : DebugFloats debug64) {records : List Record} {r s : Record}
    (hr : r ∈ records) (hs : s ∈ records) :
    ((∃ key, r ∈ observedAt (groupsOf debug64 groupFields records) key ∧
      s ∈ observedAt (groupsOf debug64 groupFields records) key) ↔
      ∀ f ∈ groupFields, SameValue (resolvePath r.fields f) (resolvePath s.fields f)) ↔
    ((∀ f ∈ groupFields, Alike (resolvePath r.fields f) (resolvePath s.fields f)) ↔
      ∀ f ∈ groupFields, SameValue (resolvePath r.fields f) (resolvePath s.fields f)) ∧
      ¬ Spells debug64 (groupFields.map (resolvePath r.fields))
        (groupFields.map (resolvePath s.fields)) ∧
      ¬ Spells debug64 (groupFields.map (resolvePath s.fields))
        (groupFields.map (resolvePath r.fields)) := by
  have hrow : ∀ R : Option Value → Option Value → Prop,
      Forall₂ R (groupFields.map (resolvePath r.fields)) (groupFields.map (resolvePath s.fields)) ↔
        ∀ f ∈ groupFields, R (resolvePath r.fields f) (resolvePath s.fields f) := fun R => by
    rw [forall₂_map_left_iff, forall₂_map_right_iff, forall₂_same]
  have hgroup : (∃ key, r ∈ observedAt (groupsOf debug64 groupFields records) key ∧
      s ∈ observedAt (groupsOf debug64 groupFields records) key) ↔
        joinedKeys debug64 (groupFields.map (resolvePath r.fields)) =
          joinedKeys debug64 (groupFields.map (resolvePath s.fields)) := by
    simp only [mem_observedAt hr, mem_observedAt hs, groupKey_eq]
    exact ⟨fun ⟨_, hkr, hks⟩ => hkr.trans hks.symm, fun h => ⟨_, h, rfl⟩⟩
  rw [hgroup, joinedKeys_eq_iff hdebug (by simp), hrow]
  constructor
  · -- if a text spelled the other row, the values would have to be equal
    intro h
    have hone : ¬ Spells debug64 (groupFields.map (resolvePath r.fields))
        (groupFields.map (resolvePath s.fields)) := fun hs =>
      hs.differ.1 ((hrow SameValue).mpr (h.mp (.inr (.inl hs))))
    have hother : ¬ Spells debug64 (groupFields.map (resolvePath s.fields))
        (groupFields.map (resolvePath r.fields)) := fun hs =>
      hs.differ.2 ((hrow SameValue).mpr (h.mp (.inr (.inr hs))))
    rw [or_iff_left (not_or.mpr ⟨hone, hother⟩)] at h
    exact ⟨h, hone, hother⟩
  · rintro ⟨h, hone, hother⟩
    rw [or_iff_left (not_or.mpr ⟨hone, hother⟩), h]

end

/-- A print of floats: one text for NaN, and the others by their bits. -/
def printFloat (f : UInt64) : Text := if isNan64 f then ['N'] else 'f' :: displayInt f.toNat

lemma debugFloats_printFloat : DebugFloats printFloat where
  bar f := by
    unfold printFloat
    split <;> simp [bar_notMem_displayInt]
  eq_iff f g := by
    unfold printFloat
    by_cases hf : isNan64 f = true <;> by_cases hg : isNan64 g = true
    · simp [hf, hg]
    · have hne : f ≠ g := fun h => hg (h ▸ hf)
      simp [hf, hg, hne]
    · have hne : f ≠ g := fun h => hf (h ▸ hg)
      simp [hf, hg, hne]
    · simp [hf, hg, displayInt_inj, UInt64.toNat_inj]

/-- A record with one field. -/
def fieldRecord (v : Value) : Record := ⟨0, [], .ofList [("f".toList, v)], 0, 0⟩

/-- A row of one value is spelled by none. -/
lemma not_spells_singleton {v : Option Value} {ws : List (Option Value)} :
    ¬ Spells debug64 [v] ws := by
  rintro ⟨before, _, _, _, _, _, _, h, _⟩
  have hlen := congrArg length h
  simp only [length_cons, length_nil, length_append] at hlen
  omega

/-- A text with a bar and a NaN, under one field. -/
theorem grouped_by_value_bar :
    (∃ key, fieldRecord (.text "a|b".toList) ∈ observedAt (groupsOf printFloat ["f".toList]
        [fieldRecord (.text "a|b".toList), fieldRecord (.float 0x7FF8000000000000)]) key ∧
      fieldRecord (.float 0x7FF8000000000000) ∈ observedAt (groupsOf printFloat ["f".toList]
        [fieldRecord (.text "a|b".toList), fieldRecord (.float 0x7FF8000000000000)]) key) ↔
      ∀ f ∈ ["f".toList], SameValue (resolvePath (fieldRecord (.text "a|b".toList)).fields f)
        (resolvePath (fieldRecord (.float 0x7FF8000000000000)).fields f) := by
  refine (grouped_by_value debugFloats_printFloat (by simp) (by simp)).mpr
    ⟨?_, not_spells_singleton, not_spells_singleton⟩
  have htext : resolvePath (fieldRecord (.text "a|b".toList)).fields "f".toList =
      some (.text "a|b".toList) := rfl
  have hfloat : resolvePath (fieldRecord (.float 0x7FF8000000000000)).fields "f".toList =
      some (.float 0x7FF8000000000000) := rfl
  rw [forall_mem_singleton, forall_mem_singleton, htext, hfloat]
  simp [Alike, SameValue, valueEq]

/-- Lists of one length are one group. -/
theorem lists_grouped_together : (observedAt (groupsOf (fun _ => []) ["f".toList]
      [fieldRecord (.list [.int 1]), fieldRecord (.list [.int 2])]) "L1".toList).length = 2 ∧
      valueEq (.list [.int 1]) (.list [.int 2]) = false := by decide +kernel

end XyzDB.Engine
