import XyzDB.Engine.Base

/-!
# What the changes of a statement are made from

A change carries what it was made from, and each statement makes its changes in its own way. Here
is what can be said of a change in the store in which it is made (`Facts`), for every statement:
where the written record was read or how it was placed, which entries go with it, and what was
checked. `execute_facts` in `Engine.Statements` shows it once for every statement. An invariant
of histories is then a matter of single changes (`history_invariant` there).

A statement reads the store before it changes it. `Since` is what has happened between the two:
counters went up, names of fields got numbers, a dimension or a gravity was declared. The trees
are as they were.
-/

namespace XyzDB.Engine

open Std (ExtTreeMap)
open Talk (FilterExpr FindTarget)

open List Option SpatialKey Std.LawfulEqOrd

variable {lobe : UInt16} {r : Record} {db db' : Db} {lid : Lid}

section

variable (p : Platform)

/-- Names of fields got their numbers, by any number of encodings. -/
inductive Grows : LobeFieldRegistry → LobeFieldRegistry → Prop
  | refl (reg : LobeFieldRegistry) : Grows reg reg
  | split {reg reg' : LobeFieldRegistry} (lobe : UInt16) (r : Record) (f : Text) : Grows reg reg' →
      Grows reg (reg'.serializeRecordV5Durable p.normSq lobe r (some f)).2.2.2
  | number {reg reg' : LobeFieldRegistry} (lobe : UInt16) (r : Record) : Grows reg reg' →
      Grows reg (reg'.serializeRecordV2Durable lobe r).2.2

lemma Grows.trans {a b c : LobeFieldRegistry} (h : Grows p a b) (h' : Grows p b c) :
    Grows p a c := by
  induction h' with
  | refl => exact h
  | split lobe r f _ ih => exact ih.split lobe r f
  | number lobe r _ ih => exact ih.number lobe r

/-- A later catalog, in which no lobe, anchor or satellite was declared. -/
structure Later (c c' : Catalog) : Prop where
  lobes : c'.lobes = c.lobes
  anchors : c'.anchorRegistry = c.anchorRegistry
  satellites : c'.satelliteSpecs = c.satelliteSpecs
  epoch : c'.bootEpoch = c.bootEpoch
  recordSeq : c.recordSeq ≤ c'.recordSeq
  lidSeq : c.lidSeq ≤ c'.lidSeq
  gravity : ∀ lobe spec, c.getGravitySpec lobe = some spec → c'.getGravitySpec lobe = some spec
  search : ∀ lobe, c'.searchField lobe = c.searchField lobe
  dim : ∀ lobe f d, c.getVectorSpec lobe = some ⟨f, some d⟩ →
    c'.getVectorSpec lobe = some ⟨f, some d⟩
  names : Grows p c.fieldRegistry c'.fieldRegistry

/-- A later store with the same trees. -/
structure Since (db db' : Db) : Prop where
  later : Later p db.catalog db'.catalog
  trees : db'.trees = db.trees
  recordCache : db'.recordCache = db.recordCache
  ghosts : db'.ghosts = db.ghosts

/-- A later store with the same trees and the same gravity. -/
structure Quiet (db db' : Db) : Prop extends Since p db db' where
  gravitySpecs : db'.catalog.gravitySpecs = db.catalog.gravitySpecs

variable {p}

lemma Later.refl (c : Catalog) : Later p c c :=
  ⟨rfl, rfl, rfl, rfl, le_rfl, le_rfl, fun _ _ h => h, fun _ => rfl, fun _ _ _ h => h, .refl _⟩

lemma Later.trans {a b c : Catalog} (h : Later p a b) (h' : Later p b c) : Later p a c :=
  ⟨h'.lobes.trans h.lobes, h'.anchors.trans h.anchors, h'.satellites.trans h.satellites,
    h'.epoch.trans h.epoch, h.recordSeq.trans h'.recordSeq, h.lidSeq.trans h'.lidSeq,
    fun lobe spec hs => h'.gravity lobe spec (h.gravity lobe spec hs),
    fun lobe => (h'.search lobe).trans (h.search lobe),
    fun lobe f d hd => h'.dim lobe f d (h.dim lobe f d hd), h.names.trans p h'.names⟩

lemma Since.refl (db : Db) : Since p db db := ⟨.refl _, rfl, rfl, rfl⟩

lemma Since.trans {a b c : Db} (h : Since p a b) (h' : Since p b c) : Since p a c :=
  ⟨h.later.trans h'.later, h'.trees.trans h.trees, h'.recordCache.trans h.recordCache,
    h'.ghosts.trans h.ghosts⟩

lemma Quiet.refl (db : Db) : Quiet p db db := ⟨.refl db, rfl⟩

lemma Quiet.trans {a b c : Db} (h : Quiet p a b) (h' : Quiet p b c) : Quiet p a c :=
  ⟨h.toSince.trans h'.toSince, h'.gravitySpecs.trans h.gravitySpecs⟩

lemma Later.names_iff {c c' : Catalog} (h : Later p c c') {name : Text} :
    c'.Names name lobe ↔ c.Names name lobe := by
  rw [Catalog.Names, Catalog.Names, h.lobes]

lemma isAnchor_addAnchor {c : Catalog} {name lobe f g : Text} :
    (c.addAnchor lobe f).isAnchor name g = true ↔
      c.isAnchor name g = true ∨ (name = lobe ∧ g = f) := by
  simp only [Catalog.isAnchor, Catalog.addAnchor, OrdMap.getElem?_insert]
  split_ifs with hname
  · subst hname
    have hcomm : f = g ↔ g = f := eq_comm
    cases c.anchorRegistry[lobe]? with
    | none => simp [hcomm]
    | some fields => simp [hcomm, or_comm]
  · simp [Ne.symm hname]

/-- Changes that leave the declarations alone. -/
def Change.leavesCatalog : Change → Bool
  | .lobe _ | .anchor _ _ | .gravity _ _ _ | .vector _ _ | .satellite _ _ | .fieldDict _ => false
  | _ => true

lemma later_of_leavesCatalog (db : Db) (h : c.leavesCatalog = true) :
    Later p db.catalog (db.apply p c).catalog := by
  cases c <;> first
    | (simp [Change.leavesCatalog] at h; done)
    | exact .refl db.catalog
    | exact { Later.refl db.catalog with recordSeq := Nat.le_succ db.catalog.recordSeq }
    | exact { Later.refl db.catalog with lidSeq := Nat.le_succ db.catalog.lidSeq }

/-- Changes of counters, names, declarations and locks. -/
def Change.leavesTrees : Change → Bool
  | .lobe _ | .anchor _ _ | .gravity _ _ _ | .vector _ _ | .satellite _ _ | .fieldDict _
  | .takeLid | .takeSeq | .lock _ | .unlock _ => true
  | _ => false

lemma apply_of_leavesTrees (db : Db) (h : c.leavesTrees = true) :
    (db.apply p c).trees = db.trees ∧ (db.apply p c).recordCache = db.recordCache ∧
      (db.apply p c).ghosts = db.ghosts := by
  cases c <;> first
    | (simp [Change.leavesTrees] at h; done)
    | exact ⟨rfl, map_id', rfl⟩

variable {db : Db}

lemma since_of_later (h : Later p db.catalog (db.apply p c).catalog) (hc : c.leavesTrees = true) :
    Since p db (db.apply p c) :=
  let ⟨htrees, hcache, hghosts⟩ := apply_of_leavesTrees db hc
  ⟨h, htrees, hcache, hghosts⟩

lemma quiet_of_leaves (db : Db) (hc : c.leavesCatalog = true) (ht : c.leavesTrees = true) :
    Quiet p db (db.apply p c) :=
  ⟨since_of_later (later_of_leavesCatalog db hc) ht, by cases c <;> first | rfl | cases hc⟩

lemma quiet_fieldDict {reg : LobeFieldRegistry}
    (h : Grows p db.catalog.fieldRegistry reg) : Quiet p db (db.apply p (.fieldDict reg)) :=
  ⟨since_of_later { Later.refl (p := p) db.catalog with names := h } rfl, rfl⟩

lemma since_gravity {lobe : Text} {id : UInt16} {spec : GravitySpec}
    (h : db.catalog.getGravitySpec lobe = none) :
      Since p db (db.apply p (.gravity lobe id spec)) := by
  refine since_of_later { Later.refl db.catalog with gravity := fun name s hs => ?_ } rfl
  show (db.catalog.gravitySpecs.insert lobe spec)[name]? = some s
  rw [OrdMap.getElem?_insert, if_neg, ← Catalog.getGravitySpec, hs]
  intro heq
  rw [heq, hs] at h
  cases h

lemma quiet_vector {lobe f : Text} {d : ℕ} (h : db.catalog.getVectorSpec lobe = some ⟨f, none⟩) :
    Quiet p db (db.apply p (.vector lobe ⟨f, some d⟩)) := by
  have hget : ∀ name, (db.apply p (.vector lobe ⟨f, some d⟩)).catalog.getVectorSpec name =
      if lobe = name then some ⟨f, some d⟩ else db.catalog.getVectorSpec name := by
    intro name
    exact OrdMap.getElem?_insert
  refine ⟨since_of_later { Later.refl db.catalog with
    search := fun name => ?_, dim := fun name g n hg => ?_ }
    rfl, rfl⟩
  · rw [Catalog.searchField, Catalog.searchField, hget]
    split
    · next heq => rw [← heq, h]; rfl
    · rfl
  · rw [hget, if_neg, hg]
    intro heq
    rw [← heq, h] at hg
    cases hg

/-! ### Facts -/

variable (p)

/-- The blob, the column and the names of a record, with the numbers that a registry gives. -/
def EncodedAs (reg : LobeFieldRegistry) (lobe : UInt16) (r : Record) (search : Option Text)
    (x : Encoding) (reg' : LobeFieldRegistry) : Prop :=
  match splitField r.fields search with
  | none => x = ⟨serializeRecord r, none, none⟩ ∧ reg' = reg
  | some f =>
    x = ⟨(reg.serializeRecordV5Durable p.normSq lobe r (some f)).1,
        (reg.serializeRecordV5Durable p.normSq lobe r (some f)).2.1,
        (reg.serializeRecordV5Durable p.normSq lobe r (some f)).2.2.1⟩ ∧
      reg' = (reg.serializeRecordV5Durable p.normSq lobe r (some f)).2.2.2

/-- A record was encoded between two stores. -/
def EncodedIn (db db' : Db) (lobe : UInt16) (r : Record) (x : Encoding) : Prop :=
  ∃ reg reg', Grows p db.catalog.fieldRegistry reg ∧
    EncodedAs p reg lobe r (db'.catalog.searchField r.lobeName) x reg' ∧
      Grows p reg' db'.catalog.fieldRegistry

/-- The search vector of a record has the dimension of its lobe. -/
def DimChecked (db : Db) (r : Record) : Prop :=
  ∀ f v, db.catalog.searchField r.lobeName = some f → r.fields[f]? = some (.vector v) →
    db.catalog.getVectorSpec r.lobeName = some ⟨f, some v.length⟩

/-- The identifier was made between two stores. -/
def MadeIn (db db' : Db) (lobe : UInt16) (lid : Lid) : Prop :=
  ∃ time n, lid = Lid.new lobe time n db'.catalog.bootEpoch ∧ db.catalog.lidSeq ≤ n ∧
    n < db'.catalog.lidSeq

/-- One identifier was made before another. -/
def MadeBefore (db : Db) (a b : Lid) : Prop :=
  ∃ lobe lobe' time time' m n, m < n ∧ n < db.catalog.lidSeq ∧
    a = Lid.new lobe time m db.catalog.bootEpoch ∧ b = Lid.new lobe' time' n db.catalog.bootEpoch

/-- How many records a statement gives. -/
def Command.size : Command → ℕ
  | .putBatch stmt => stmt.records.length
  | .bulkInsert _ records => records.length
  | _ => 1

/-- A PUT BATCH with a star on a lobe without gravity: the star declares it. -/
def Command.StarredBatch (start : Db) : Command → Prop
  | .putBatch stmt => start.catalog.getGravitySpec stmt.lobe = none ∧
      ∃ given ∈ stmt.records, ∃ f ∈ given, f.gravity = true
  | _ => False

/-- The time of a key, as a statement writes it. -/
def TimedBy (l : DbLabel) (k : SpatialKey) : Prop :=
  ∃ i < l.command.size, k.timestampNorm = normalizeTimestamp (l.tick.now + i) &&& 0x1FFFFF

/-- A new record, made between two stores. -/
structure Inserted (l : DbLabel) (db db' : Db) (x : Insertion) : Prop where
  names : db'.catalog.Names x.record.lobeName x.key.lobeId
  lid : MadeIn db db' x.key.lobeId x.record.lid
  seq : db.catalog.recordSeq ≤ x.key.seq ∧ x.key.seq < db'.catalog.recordSeq
  time : TimedBy l x.key
  /-- A record that the spec applies to is in its bucket, unless it is linked. -/
  hash : x.linked = false → ∀ h, x.spec.bind (·.computeHash p x.record.fields) = some h →
    x.key.gravityHash = h
  encoded : EncodedIn p db db' x.key.lobeId x.record x.encoded
  dim : DimChecked db' x.record

/-- The entries of a new record: none in a bulk insert, else one for each anchor of its lobe. -/
def EntriesOf (l : DbLabel) (db : Db) (x : Insertion) : Prop :=
  match l.command with
  | .bulkInsert _ _ => x.entries = []
  | _ => x.entries =
      anchorEntries p (db.catalog.getAnchors x.record.lobeName) x.key.lobeId x.record.fields

/-- The records of one commit, made since a store, by a statement that started in `start`. -/
structure InsertedAll (l : DbLabel) (start db db' : Db) (xs : List Insertion) : Prop where
  each : ∀ x ∈ xs, Inserted p l db db' x
  seqs : xs.Pairwise fun x y => x.key.seq < y.key.seq
  lids : xs.Pairwise fun x y => MadeBefore db' x.record.lid y.record.lid
  entries : ∀ x ∈ xs, EntriesOf p l db' x
  /-- No entry is there yet, and no two records have the same. -/
  free : ∀ x ∈ xs, ∀ e ∈ x.entries, db'.trees.dictionary[e.2.2]? = none
  disjoint : xs.Pairwise fun x y => ∀ e ∈ x.entries, ∀ e' ∈ y.entries, e.2.2 ≠ e'.2.2
  /-- The gravity that a record was placed by is that of its lobe still. -/
  spec : ∀ x ∈ xs, x.linked = false → x.spec = db'.catalog.getGravitySpec x.record.lobeName ∨
      (x.spec = none ∧ l.command.StarredBatch start)
  linked : ∀ x ∈ xs, x.linked = true → (∃ stmt, l.command = .put stmt ∧ stmt.link.isSome) ∨
      ∃ stmt, l.command = .putBatch stmt ∧ stmt.link.isSome

/-- A record was read, with what was read of it, and is written again with other fields. -/
structure Revised (l : DbLabel) (db db' : Db) (u : Revision) : Prop where
  located : ∃ lid : Lid, db.trees.identity[lid]? = some u.oldKey
  blob : db.trees.spatial[u.oldKey]? = some u.oldBlob
  decoded : db.decode u.old.lobeName (keyLobe u.oldKey) u.oldKey u.oldBlob = some u.old
  names : db.catalog.Names u.old.lobeName (keyLobe u.oldKey)
  record : ∃ new, u.record =
    { u.old with fields := mergeFields u.old.fields new, updatedAt := l.tick.now }
  encoded : EncodedIn p db db' (keyLobe u.oldKey) u.record u.encoded

/-- The place of a record after SET: its bucket and satellite are those of its fields. -/
def Placed (l : DbLabel) (db db' : Db) (u : Revision) : Prop :=
  match u.newKey with
  | none =>
    gravityHashFor p db'.catalog u.old.lobeName u.record.fields = gravityHashFromBytes u.oldKey ∧
      (satelliteSatFor p db'.catalog u.old.lobeName u.record.fields).all
        (· = satFromBytes u.oldKey) = true
  | some k =>
    k.lobeId = keyLobe u.oldKey ∧
      k.gravityHash = gravityHashFor p db'.catalog u.old.lobeName u.record.fields ∧
        db.catalog.recordSeq ≤ k.seq ∧ k.seq < db'.catalog.recordSeq ∧ TimedBy l k

/-- A record was read as it is in its blob, and is written again with a link. -/
structure Linked (db db' : Db) (u : Revision) : Prop where
  located : ∃ lid : Lid, db.trees.identity[lid]? = some u.oldKey
  blob : db.trees.spatial[u.oldKey]? = some u.oldBlob
  decoded : deserializeRecord u.oldBlob (db.catalog.lobeNameForId (keyLobe u.oldKey))
    (db.catalog.fieldRegistry.getDict (keyLobe u.oldKey)) = some u.old
  moved : u.newKey = none
  record : u.record.lid = u.old.lid
  encoded : u.encoded.blob.lid = u.old.lid

/-- Records were removed since, and nothing else was done to the trees. -/
structure Shrunk (db db' : Db) : Prop where
  catalog : db'.catalog = db.catalog
  spatial : ∀ (k : Key) b, db'.trees.spatial[k]? = some b → db.trees.spatial[k]? = some b
  identity : ∀ (lid : Lid) k, db'.trees.identity[lid]? = some k → db.trees.identity[lid]? = some k
  dictionary : ∀ (e : Key) lid, db'.trees.dictionary[e]? = some lid →
    db.trees.dictionary[e]? = some lid

/-- The statements that put records. -/
def Command.puts : Command → Bool
  | .put _ | .putBatch _ | .bulkInsert _ _ => true
  | _ => false

/-- The statements that write links. -/
def Command.Links : Command → Prop
  | .put stmt => stmt.link.isSome
  | .link _ => True
  | _ => False

/-- The statements that declare an anchor. -/
def Command.Anchors (lobe field : Text) : Command → Prop
  | .anchor stmt => stmt.lobe = lobe ∧ stmt.field = field
  | .autoAnchorApply stmt => stmt.lobe = lobe ∧ stmt.field = field
  | _ => False

/-- A statement found a record in the store in which it started. -/
def FoundBy (l : DbLabel) (start : Db) (r : Record) : Prop :=
  match l.command with
  | .set stmt => ∃ target found k, stmt.target = some target ∧
      start.resolveFindExpr p target stmt.filterExpr = .ok found ∧ (r, k) ∈ found
  | .delete stmt => ∃ target found k, stmt.target = some target ∧
      start.resolveFindExpr p target stmt.filterExpr = .ok found ∧ (r, k) ∈ found
  | .purge stmt => ∃ found k,
      start.resolveFindExpr p (.lobe stmt.lobe) none = .ok found ∧ (r, k) ∈ found
  | .link stmt => ∃ found k,
      start.resolveFindExpr p stmt.source stmt.sourceFilterExpr = .ok found ∧ (r, k) ∈ found
  | _ => False

variable (I : Db → Prop)

/-- A record that was found is removed. -/
structure Removed (l : DbLabel) (start db : Db) (d : Removal) : Prop where
  key : db.trees.identity[d.record.lid]? = some d.key
  entries : d.entries = deleteEntries p db.catalog d.record
  inv : I start
  shrunk : Shrunk start db
  found : FoundBy p l start d.record

/-- **Facts about a change** in the store in which it is made, for a statement in whose states
`I` holds, and which started in `start`. -/
def Facts (l : DbLabel) (start db : Db) : Change → Prop
  | .anchor lobe field => l.command.Anchors lobe field ∧ db.catalog.isAnchor lobe field = false ∧
      ∃ id, db.catalog.Names lobe id
  | .gravity lobe id _ => db.catalog.getGravitySpec lobe = none ∧ db.catalog.Names lobe id
  | .vector lobe spec =>
    (∃ id, db.catalog.Names lobe id) ∧
      ((db.catalog.getVectorSpec lobe = none ∧ spec.dim = none ∧ ∃ stmt, l.command = .vector stmt) ∨
        ∃ f d, db.catalog.getVectorSpec lobe = some ⟨f, none⟩ ∧ spec = ⟨f, some d⟩)
  | .satellite lobe _ => (∃ stmt, l.command = .satellite stmt) ∧
      ∃ id, db.catalog.Names lobe id ∧ db.lobeEntries id = []
  | .fieldDict reg => Grows p db.catalog.fieldRegistry reg
  | .insert xs => l.command.puts = true ∧ ∃ db₀, I db₀ ∧ Since p db₀ db ∧
      InsertedAll p l start db₀ db xs
  | .upsert u => l.command.puts = true ∧ ∃ db₀, I db₀ ∧ Quiet p db₀ db ∧ Revised p l db₀ db u ∧
      u.newKey = none ∧
      DimChecked db u.record
  | .set u => (∃ r, FoundBy p l start r ∧ db.trees.identity[r.lid]? = some u.oldKey) ∧
      ∃ db₀, I db₀ ∧ Quiet p db₀ db ∧ Revised p l db₀ db u ∧ Placed p l db₀ db u ∧
      ∀ f, db.catalog.isAnchor u.old.lobeName f = true → u.record.fields[f]? = u.old.fields[f]?
  | .link u => l.command.Links ∧ (∀ stmt, l.command = .link stmt →
        ∃ r, FoundBy p l start r ∧ db.trees.identity[r.lid]? = some u.oldKey) ∧ ∃ db₀, I db₀ ∧
          Quiet p db₀ db ∧ Linked db₀ db u
  | .delete d => Removed p I l start db d
  | .index entry lid => ∃ stmt, l.command = .autoAnchorApply stmt ∧ ∃ lobe field k b,
      db.catalog.Names stmt.lobe lobe ∧ field = stmt.field ∧
      db.trees.spatial[k]? = some b ∧ keyLobe k = lobe ∧ db.trees.dictionary[entry]? = none ∧
        ∃ name value, (deserializeRecord b name (db.catalog.fieldRegistry.getDict lobe)).bind
          (fun r => r.fields[field]?.map fun v => (r.lid, valueToAnchorString p v)) =
            some (lid, value) ∧ entry = dictionaryKey lobe field value
  | .cacheRecord lobe r => db.catalog.Names r.lobeName lobe ∧ Lid.lobeId r.lid = lobe
  | .cacheLobe lobe records => (∃ stmt, l.command = .inCache stmt) ∧
      ∀ r ∈ records, db.catalog.Names r.lobeName lobe ∧
      Lid.lobeId r.lid = lobe
  | .allocGhost | .ingestGhost _ _ _ | .insertGhost _ =>
    ∃ lobe spec, l.command = .createGhost lobe spec
  | _ => True

end

/-! ### The base invariant -/

section

variable {p : Platform} {I : Db → Prop} {l : DbLabel} {start db : Db} {c : Change}

lemma EncodedAs.blob_lid {reg reg' : LobeFieldRegistry} {search : Option Text} {x : Encoding}
    (h : EncodedAs p reg lobe r search x reg') : x.blob.lid = r.lid := by
  unfold EncodedAs at h
  split at h
  · rw [h.1]
    rfl
  · rw [h.1]
    rfl

lemma EncodedIn.blob_lid {x : Encoding} (h : EncodedIn p db db' lobe r x) : x.blob.lid = r.lid := by
  obtain ⟨_, _, _, h, _⟩ := h
  exact h.blob_lid

lemma FoundBy.holds (h : Base start) (hr : FoundBy p l start r) : start.Holds r := by
  unfold FoundBy at hr
  split at hr
  · obtain ⟨_, found, k, -, hfound, hmem⟩ := hr
    exact h.holds_of_found hfound hmem
  · obtain ⟨_, found, k, -, hfound, hmem⟩ := hr
    exact h.holds_of_found hfound hmem
  · obtain ⟨found, k, hfound, hmem⟩ := hr
    exact h.holds_of_found hfound hmem
  · obtain ⟨found, k, hfound, hmem⟩ := hr
    exact h.holds_of_found hfound hmem
  · exact hr.elim

lemma names_apply {name : Text} (h : db.catalog.Names name lobe) :
    (db.apply p c).catalog.Names name lobe := by
  cases c with
  | lobe new =>
    show ((db.catalog.lobes.getOrCreate new).2).get name = some lobe
    unfold LobeRegistry.getOrCreate
    split
    · exact h
    · next hnone =>
      rw [LobeRegistry.get, OrdMap.getElem?_insert, if_neg]
      · exact h
      · intro heq
        rw [heq] at hnone
        rw [Catalog.Names, LobeRegistry.get, hnone] at h
        cases h
  | _ => exact h

variable {records : ExtTreeMap Lid Record}

lemma getElem?_onCachedLobe {cache : RecordCache} {lobe' : UInt16}
    {f : ExtTreeMap Lid Record → ExtTreeMap Lid Record}
    (h : (onCachedLobe cache lobe f)[lobe']? = some records) :
    cache[lobe']? = some records ∨
      (lobe' = lobe ∧ ∃ old, cache[lobe]? = some old ∧ records = f old) := by
  unfold onCachedLobe at h
  split at h
  · next old hold =>
    rw [OrdMap.getElem?_insert] at h
    split at h
    · next heq => exact .inr ⟨heq.symm, old, hold, (some.inj h).symm⟩
    · exact .inl h
  · exact .inl h

lemma cacheApply_eq_some {cache : RecordCache}
    (h : (cacheApply cache c)[lobe]? = some records) (hr : records[lid]? = some r) :
    (∃ old, cache[lobe]? = some old ∧ old[lid]? = some r) ∨
      (c = .cacheRecord lobe r ∧ r.lid = lid) ∨
        ∃ loaded, c = .cacheLobe lobe loaded ∧ r ∈ loaded ∧ r.lid = lid := by
  cases c with
  | cacheRecord lobe' r' =>
    rcases getElem?_onCachedLobe h with h | ⟨rfl, old, hold, rfl⟩
    · exact .inl ⟨_, h, hr⟩
    · rw [OrdMap.getElem?_insert] at hr
      split at hr
      · next heq =>
        cases hr
        exact .inr (.inl ⟨rfl, heq⟩)
      · exact .inl ⟨old, hold, hr⟩
  | uncacheRecord lobe' lid' =>
    rcases getElem?_onCachedLobe h with h | ⟨rfl, old, hold, rfl⟩
    · exact .inl ⟨_, h, hr⟩
    · rw [OrdMap.getElem?_erase] at hr
      split at hr
      · cases hr
      · exact .inl ⟨old, hold, hr⟩
  | cacheLobe lobe' loaded =>
    simp only [cacheApply, OrdMap.getElem?_insert] at h
    split at h
    · next heq =>
      subst heq
      cases h
      -- the loaded records one after the other, over those that were cached
      have hfold : ∀ (rs : List Record) (m : ExtTreeMap Lid Record),
          (rs.foldl (fun m r => m.insert r.lid r) m)[lid]? = some r →
            m[lid]? = some r ∨ (r ∈ rs ∧ r.lid = lid) := by
        intro rs
        induction rs with
        | nil => exact fun m h => .inl h
        | cons r' rs ih =>
          intro m h
          rcases ih _ h with h | ⟨hmem, hlid⟩
          · rw [OrdMap.getElem?_insert] at h
            split at h
            · next heq =>
              cases h
              exact .inr ⟨mem_cons_self, heq⟩
            · exact .inl h
          · exact .inr ⟨.tail _ hmem, hlid⟩
      rcases hfold loaded _ hr with h | ⟨hmem, hlid⟩
      · cases hold : cache[lobe']? with
        | none => simp [hold] at h
        | some old => exact .inl ⟨old, rfl, by simpa [hold] using h⟩
      · exact .inr (.inr ⟨loaded, rfl, hmem, hlid⟩)
    · exact .inl ⟨_, h, hr⟩
  | uncacheLobe lobe' =>
    simp only [cacheApply, OrdMap.getElem?_erase] at h
    split at h
    · cases h
    · exact .inl ⟨_, h, hr⟩
  | _ => exact .inl ⟨_, h, hr⟩

lemma cached_eq_some : db.cached lobe lid = some r ↔ ∃ cache records, db.recordCache = some cache ∧
      cache[lobe]? = some records ∧ records[lid]? = some r := by
  simp [Db.cached, bind_eq_some_iff]

lemma cached_apply (h : (db.apply p c).cached lobe lid = some r) :
    db.cached lobe lid = some r ∨ (c = .cacheRecord lobe r ∧ r.lid = lid) ∨
      ∃ loaded, c = .cacheLobe lobe loaded ∧ r ∈ loaded ∧ r.lid = lid := by
  obtain ⟨cache', records, hcache', hrecords, hr⟩ := cached_eq_some.mp h
  obtain ⟨cache, hcache, rfl⟩ := map_eq_some_iff.mp hcache'
  rcases cacheApply_eq_some hrecords hr with ⟨old, hold, hr⟩ | h
  · exact .inl (cached_eq_some.mpr ⟨cache, old, hcache, hold, hr⟩)
  · exact .inr h

lemma keyLobe_dictionaryKey (lobe : UInt16) (field value : Text) :
    keyLobe (dictionaryKey lobe field value) = lobe := keyLobe_beBytes_append lobe _

lemma mem_anchorEntries {anchors : List Text} {fields : Fields} {e : AnchorEntry} :
    e ∈ anchorEntries p anchors lobe fields ↔ e.1 ∈ anchors ∧ ∃ v, fields[e.1]? = some v ∧
      e.2.1 = valueToAnchorString p v ∧ e.2.2 = dictionaryKey lobe e.1 e.2.1 := by
  obtain ⟨name, value, key⟩ := e
  simp only [anchorEntries, mem_filterMap, map_eq_some_iff, Prod.mk.injEq]
  constructor
  · rintro ⟨_, hmem, v, hv, rfl, rfl, rfl⟩
    exact ⟨hmem, v, hv, rfl, rfl⟩
  · rintro ⟨hmem, v, hv, rfl, rfl⟩
    exact ⟨name, hmem, v, hv, rfl, rfl, rfl⟩

lemma EntriesOf.keyLobe {x : Insertion} (h : EntriesOf p l db x) {e : AnchorEntry}
    (he : e ∈ x.entries) : keyLobe e.2.2 = x.key.lobeId := by
  unfold EntriesOf at h
  split at h
  · rw [h] at he
    cases he
  · rw [h] at he
    obtain ⟨-, v, -, -, hkey⟩ := mem_anchorEntries.mp he
    rw [hkey, keyLobe_dictionaryKey]

lemma Inserted.lobeId_lid {x : Insertion} (h : Inserted p l db db' x) :
    Lid.lobeId x.record.lid = x.key.lobeId := by
  obtain ⟨time, n, hlid, -⟩ := h.lid
  rw [hlid, Lid.lobeId_new]

variable {u : Revision}

lemma Revised.key (hb : Base db) (h : Revised p l db db' u)
    (hplaced : ∀ k, u.newKey = some k → k.lobeId = keyLobe u.oldKey) :
    u.key.length = spatialKeySize ∧ keyLobe u.key = keyLobe u.oldKey ∧
      Lid.lobeId u.record.lid = keyLobe u.oldKey := by
  obtain ⟨hlen, hlid, -⟩ := hb.spatial _ _ h.blob
  have hrecord : u.record.lid = u.oldBlob.lid := by
    obtain ⟨new, hnew⟩ := h.record
    rw [hnew]
    exact (decode_eq_some h.decoded).1
  rw [hrecord]
  cases hkey : u.newKey with
  | none => simp [Revision.key, hkey, hlen, hlid]
  | some k => simp [Revision.key, hkey, hlid, hplaced k hkey]

lemma Placed.lobeId (h : Placed p l db db' u) (k : SpatialKey)
    (hk : u.newKey = some k) : k.lobeId = keyLobe u.oldKey := by
  rw [Placed, hk] at h
  exact h.1

lemma Linked.key (h : Linked db db' u) : u.key = u.oldKey := by
  rw [Revision.key, h.moved]
  rfl

/-- A new key is one of a known lobe, that of the record's identifier. -/
lemma Facts.spatial_new (hI : ∀ db, I db → Base db) (hf : Facts p I l start db c) {k : Key}
    {b : Blob} (hk : (k, some b) ∈ c.spatialWrites) :
    k.length = spatialKeySize ∧ Lid.lobeId b.lid = keyLobe k ∧
      ∃ name, db.catalog.Names name (keyLobe k) := by
  have hrevised : ∀ {db₀ u}, I db₀ → Quiet p db₀ db → Revised p l db₀ db u →
      (∀ k, u.newKey = some k → k.lobeId = keyLobe u.oldKey) → k = u.key → b = u.encoded.blob →
      k.length = spatialKeySize ∧ Lid.lobeId b.lid = keyLobe k ∧
        ∃ name, db.catalog.Names name (keyLobe k) := by
    rintro db₀ u hi hquiet hr hplaced rfl rfl
    obtain ⟨hlen, hkey, hlid⟩ := hr.key (hI _ hi) hplaced
    rw [hkey, hr.encoded.blob_lid]
    exact ⟨hlen, hlid, _, hquiet.later.names_iff.mpr hr.names⟩
  cases c with
  | insert xs =>
    obtain ⟨x, hx, hkx⟩ := mem_map.mp hk
    cases hkx
    obtain ⟨-, db₀, -, -, hall⟩ := hf
    have hins := hall.each x hx
    rw [hins.encoded.blob_lid, hins.lobeId_lid, Insertion.bytes, keyLobe_toBytes]
    exact ⟨length_toBytes _, rfl, _, hins.names⟩
  | upsert u =>
    obtain ⟨-, db₀, hi, hquiet, hr, hnone, -⟩ := hf
    have hmem : k = u.key ∧ b = u.encoded.blob := by simpa [Change.spatialWrites] using hk
    exact hrevised hi hquiet hr (by simp [hnone]) hmem.1 hmem.2
  | set u =>
    obtain ⟨-, db₀, hi, hquiet, hr, hplaced, -⟩ := hf
    have hmem : k = u.key ∧ b = u.encoded.blob := by simpa [Change.spatialWrites] using hk
    exact hrevised hi hquiet hr hplaced.lobeId hmem.1 hmem.2
  | link u =>
    obtain ⟨-, -, db₀, hi, hquiet, hlinked⟩ := hf
    have hmem : k = u.oldKey ∧ b = u.encoded.blob := by
      simpa [Change.spatialWrites, hlinked.key] using hk
    obtain ⟨rfl, rfl⟩ := hmem
    obtain ⟨hlen, hlid, name, hname⟩ := (hI _ hi).spatial _ _ hlinked.blob
    rw [hlinked.encoded, (deserializeRecord_eq_some hlinked.decoded).1]
    exact ⟨hlen, hlid, name, hquiet.later.names_iff.mpr hname⟩
  | delete d => simp [Change.spatialWrites] at hk
  | _ => cases hk

lemma Facts.identity_new (hI : ∀ db, I db → Base db) (hf : Facts p I l start db c) {k : Key}
    (hk : (lid, some k) ∈ c.identityWrites) :
    k.length = spatialKeySize ∧ keyLobe k = lid.lobeId := by
  cases c with
  | insert xs =>
    obtain ⟨x, hx, hkx⟩ := mem_map.mp hk
    cases hkx
    obtain ⟨-, db₀, -, -, hall⟩ := hf
    rw [(hall.each x hx).lobeId_lid, Insertion.bytes, keyLobe_toBytes]
    exact ⟨length_toBytes _, rfl⟩
  | upsert u =>
    obtain ⟨-, db₀, -, -, -, hnone, -⟩ := hf
    simp [Change.identityWrites, hnone] at hk
  | set u =>
    obtain ⟨-, db₀, hi, -, hr, hplaced, -⟩ := hf
    obtain ⟨key, hkey, heq⟩ := mem_map.mp hk
    cases heq
    rw [mem_toList] at hkey
    obtain ⟨-, -, hlid⟩ := hr.key (hI _ hi) hplaced.lobeId
    rw [keyLobe_toBytes, hplaced.lobeId key hkey]
    exact ⟨length_toBytes _, hlid.symm⟩
  | link u =>
    obtain ⟨-, -, db₀, -, -, hlinked⟩ := hf
    simp [Change.identityWrites, hlinked.moved] at hk
  | delete d => simp [Change.identityWrites] at hk
  | _ => cases hk

lemma Facts.dictionary_new (h : Base db) (hf : Facts p I l start db c) {e : Key}
    (he : (e, some lid) ∈ c.dictionaryWrites) : lid.lobeId = keyLobe e := by
  cases c with
  | insert xs =>
    obtain ⟨x, hx, he⟩ := mem_flatMap.mp he
    obtain ⟨entry, hentry, heq⟩ := mem_map.mp he
    cases heq
    obtain ⟨-, db₀, -, -, hall⟩ := hf
    rw [(hall.entries x hx).keyLobe hentry]
    exact (hall.each x hx).lobeId_lid
  | index entry lid' =>
    obtain ⟨rfl, rfl⟩ : e = entry ∧ lid = lid' := by simpa [Change.dictionaryWrites] using he
    obtain ⟨stmt, -, lobe, field, k, b, -, -, hspatial, hlobe, -, name, value, hread, rfl⟩ := hf
    obtain ⟨r, hr, hv⟩ := bind_eq_some_iff.mp hread
    obtain ⟨v, -, hpair⟩ := map_eq_some_iff.mp hv
    obtain ⟨-, hlid, -⟩ := h.spatial _ _ hspatial
    rw [keyLobe_dictionaryKey, ← (Prod.mk.inj hpair).1, (deserializeRecord_eq_some hr).1,
      hlid, hlobe]
  | delete d => simp [Change.dictionaryWrites] at he
  | _ => cases he

/-- **The base invariant is kept** by every change of a statement. -/
theorem Base.apply (h : Base db) (hI : ∀ db, I db → Base db) (hf : Facts p I l start db c) :
    Base (db.apply p c) where
  spatial k b hk := by
    rw [Db.spatial_apply] at hk
    rcases OrdMap.getElem?_putAll_eq_some hk with hk | hk
    · obtain ⟨hlen, hlid, name, hname⟩ := h.spatial k b hk
      exact ⟨hlen, hlid, name, names_apply hname⟩
    · obtain ⟨hlen, hlid, name, hname⟩ := hf.spatial_new hI hk
      exact ⟨hlen, hlid, name, names_apply hname⟩
  identity lid k hk := by
    rw [Db.identity_apply] at hk
    rcases OrdMap.getElem?_putAll_eq_some hk with hk | hk
    · exact h.identity lid k hk
    · exact hf.identity_new hI hk
  dictionary e lid he := by
    rw [Db.dictionary_apply] at he
    rcases OrdMap.getElem?_putAll_eq_some he with he | he
    · exact h.dictionary e lid he
    · exact hf.dictionary_new h he
  cache lobe lid r hr := by
    rcases cached_apply hr with hr | ⟨rfl, hlid⟩ | ⟨loaded, rfl, hmem, hlid⟩
    · obtain ⟨hlid, hlobe, hname⟩ := h.cache lobe lid r hr
      exact ⟨hlid, hlobe, names_apply hname⟩
    · obtain ⟨hname, hlobe⟩ := hf
      exact ⟨hlid, hlid ▸ hlobe, hname⟩
    · obtain ⟨hname, hlobe⟩ := hf.2 r hmem
      exact ⟨hlid, hlid ▸ hlobe, hname⟩

end

end XyzDB.Engine
