import XyzDB.Engine.Facts

/-!
# Every change of a statement is as `Facts` says

One walk through the programs of `Engine.Writes`: a lemma for each function, which says what its
changes are and what is known when it returns, and from these `execute_facts`.
`history_invariant` is the rule that the invariants of the store are proved by.
-/

namespace XyzDB.Engine

open Std (ExtTreeMap)
open Talk (FilterExpr FindTarget PutField LinkClause PutStmt PutBatchStmt SetStmt DeleteStmt
  PurgeStmt LinkStmt AnchorStmt AutoAnchorApplyStmt GravityStmt VectorStmt SatelliteStmt LobeStmt
  InCacheStmt)

open List Option Prog Catalog

variable {p : Platform} {I : Db → Prop} {l : DbLabel} {start : Db}
  {db db' : Db} {r : Record} {lobeName : Text} {lobe : UInt16} {fields : Fields} {lid : Lid}
  {k : Key} {entries : List AnchorEntry} {stmt : AutoAnchorApplyStmt}

variable (p I l start) in
/-- What a program does from a store on: its changes are as `Facts` says, and `Q` holds when it
returns. -/
abbrev Does {α : Type} (m : Run α) (Q : α → Db → Prop) (db : Db) : Prop :=
  m.wp (Db.apply p) I (Facts p I l start) Q db

variable (p I l start) in
/-- As `Does`, whatever the program returns. -/
abbrev Acts {α : Type} (m : Run α) (db : Db) : Prop := Does p I l start m (fun _ _ => True) db

variable {dictionary : ExtTreeMap Key Lid} {a b c : Db} {lid' : Lid} {xs : List Insertion}

lemma does_getOrCreateLobe (name : Text) :
    Does p I l start (getOrCreateLobe name) (fun id db' => db'.catalog.Names name id ∧
      db'.catalog.gravitySpecs = db.catalog.gravitySpecs) db := by
  refine wp_makeWith fun _ => ⟨trivial, fun _ => ⟨?_, rfl⟩⟩
  show ((db.catalog.lobes.getOrCreate name).2).get name = some (db.catalog.lobes.getOrCreate name).1
  unfold LobeRegistry.getOrCreate
  split
  · next id hid => exact hid
  · exact ExtTreeMap.getElem?_insert_self

lemma does_lobeId {α : Type} {name : Text} {f : UInt16 → Run α} {Q : α → Db → Prop}
    (h : ∀ id, db.catalog.Names name id → Does p I l start (f id) Q db) :
    Does p I l start (lobeId name >>= f) Q db := by
  refine wp_bind (wp_query fun _ id hid => h id ?_)
  split at hid
  · next id' hid' => rwa [← Except.ok.inj hid]
  · cases hid

lemma does_executeLobe (stmt : LobeStmt) : Acts p I l start (executeLobe stmt) db := by
  refine wp_bind (wp_ask fun _ => ?_)
  split
  · trivial
  · exact wp_call (does_getOrCreateLobe _) fun _ _ _ _ => wp_done

lemma does_executeAnchor {stmt : AnchorStmt} (hl : l.command = .anchor stmt) :
    Acts p I l start (executeAnchor stmt) db := by
  refine does_lobeId fun id hid => ?_
  refine wp_bind (wp_ask fun _ => ?_)
  split
  · trivial
  · next hnew =>
    refine wp_bind (wp_make fun _ => ⟨⟨?_, by simpa using hnew, id, hid⟩, fun _ _ => trivial⟩)
    rw [hl]
    exact ⟨rfl, rfl⟩

lemma does_registerGravityField (lobe field : Text) :
    Does p I l start (registerGravityField lobe field) (fun _ db' => Since p db db' ∧
      ((db.catalog.getGravitySpec lobe).isSome → db' = db)) db := by
  refine fun _ _ => ⟨fun c hc => ?_, ?_⟩
  · dsimp only at hc
    split at hc
    · cases hc
    · next hspec =>
      obtain ⟨id, hid, rfl⟩ := map_eq_some_iff.mp hc
      exact ⟨by simpa using hspec, hid⟩
  · dsimp only
    split
    · intro _
      unfold Prog.after
      dsimp only
      split
      · next c hc =>
        split at hc
        · cases hc
        · next hspec =>
          obtain ⟨id, -, rfl⟩ := map_eq_some_iff.mp hc
          exact ⟨since_gravity (by simpa using hspec), fun h => absurd h hspec⟩
      · exact ⟨.refl db, fun _ => rfl⟩
    · trivial

lemma does_executeGravity (stmt : GravityStmt) : Acts p I l start (executeGravity p stmt) db := by
  refine does_lobeId fun id hid => ?_
  refine wp_bind (wp_ask fun _ => ?_)
  split
  · split
    · exact wp_done
    · trivial
  · next hspec => exact wp_bind (wp_make fun _ => ⟨⟨hspec, hid⟩, fun _ _ => trivial⟩)

lemma does_executeVector {stmt : VectorStmt} (hl : l.command = .vector stmt) :
    Acts p I l start (executeVector p stmt) db := by
  unfold executeVector
  split
  · trivial
  · refine does_lobeId fun id hid => ?_
    refine wp_bind (wp_ask fun _ => ?_)
    split
    · split
      · exact wp_done
      · trivial
    · next hspec =>
      exact wp_bind (wp_make fun _ =>
        ⟨⟨⟨id, hid⟩, .inl ⟨hspec, rfl, stmt, hl⟩⟩, fun _ _ => trivial⟩)

lemma does_executeSatellite {stmt : SatelliteStmt} (hl : l.command = .satellite stmt) :
    Acts p I l start (executeSatellite p stmt) db := by
  unfold executeSatellite
  split
  · trivial
  · refine does_lobeId fun id hid => ?_
    refine wp_bind (wp_ask fun _ => ?_)
    split
    · split
      · exact wp_done
      · trivial
    · refine wp_bind (wp_ask fun _ => ?_)
      split
      · next hempty =>
        exact wp_bind (wp_make fun _ =>
          ⟨⟨⟨stmt, hl⟩, id, hid, by simpa using hempty⟩, fun _ _ => trivial⟩)
      · trivial

lemma does_checkStars (lobe : Text) (spec : Option GravitySpec) (stars : List (Text × Value)) :
    Does p I l start (checkStars lobe spec stars) (fun _ db' => db' = db) db := by
  unfold checkStars
  split
  · trivial
  · exact wp_pure fun _ => rfl

lemma does_registerStars (lobe : Text) (stars : List (Text × Value)) :
    Does p I l start (registerStars lobe stars) (fun _ db' => Since p db db' ∧
      (stars = [] ∨ (db.catalog.getGravitySpec lobe).isSome → db' = db)) db := by
  unfold registerStars
  split
  · next field v =>
    exact wp_post (does_registerGravityField lobe field) fun _ _ _ h => ⟨h.1, by simpa using h.2⟩
  · exact wp_pure fun _ => ⟨.refl db, fun _ => rfl⟩

lemma does_ensureVectorDim (lobe field : Text) (dim : ℕ) :
    Does p I l start (ensureVectorDim lobe field dim)
      (fun _ db' => Quiet p db db' ∧ ∀ f, db.catalog.searchField lobe = some f →
        db'.catalog.getVectorSpec lobe = some ⟨f, some dim⟩) db := by
  refine fun _ _ => ⟨fun c hc => ?_, ?_⟩
  · dsimp only at hc
    split at hc
    · next f hspec =>
      obtain ⟨id, hid, rfl⟩ := map_eq_some_iff.mp hc
      exact ⟨⟨id, hid⟩, .inr ⟨f, dim, hspec, rfl⟩⟩
    · cases hc
  · dsimp only
    split
    · next f d hspec =>
      split
      · next hdim =>
        simp only [Prog.after, hspec]
        refine fun _ => ⟨.refl db, fun g hg => ?_⟩
        obtain rfl : f = g := by simpa [searchField, hspec] using hg
        rw [hspec, hdim]
      · trivial
    · next f hspec =>
      split
      · next hlobe =>
        obtain ⟨id, hid⟩ := isSome_iff_exists.mp hlobe
        simp only [Prog.after, hspec, hid]
        refine fun _ => ⟨quiet_vector hspec, fun g hg => ?_⟩
        obtain rfl : f = g := by simpa [searchField, hspec] using hg
        exact ExtTreeMap.getElem?_insert_self
      · trivial
    · next hspec =>
      simp only [Prog.after, hspec]
      exact fun _ => ⟨.refl db, fun g hg => by simp [searchField, hspec] at hg⟩

lemma does_checkDim (db : Db) (r : Record) :
    Does p I l start (checkDim r.lobeName r.fields (db.catalog.searchField r.lobeName))
      (fun _ db' => Quiet p db db' ∧ DimChecked db' r) db := by
  unfold checkDim
  split
  · next f hf =>
    split
    · next v hv =>
      refine wp_post (does_ensureVectorDim _ _ _) fun _ db' _ ⟨hquiet, hdim⟩ => ⟨hquiet, ?_⟩
      intro g w hg hw
      rw [hquiet.later.search, hf] at hg
      cases hg
      rw [hw] at hv
      cases hv
      exact hdim _ hf
    · next hv =>
      refine wp_pure fun _ => ⟨.refl db, fun g w hg hw => ?_⟩
      rw [hf] at hg
      cases hg
      rw [hw] at hv
      cases hv
  · next hf =>
    refine wp_pure fun _ => ⟨.refl db, fun g w hg _ => ?_⟩
    rw [hf] at hg
    cases hg

lemma DimChecked.mono (h : DimChecked db r) (hlater : Later p db.catalog db'.catalog) :
    DimChecked db' r := by
  intro f v hf hv
  rw [hlater.search] at hf
  exact hlater.dim _ _ _ (h f v hf hv)

lemma does_encodeRecord (lobe : UInt16) (r : Record) (search : Option Text) :
    Does p I l start (encodeRecord p lobe r search) (fun x db' => Quiet p db db' ∧
      EncodedAs p db.catalog.fieldRegistry lobe r search x db'.catalog.fieldRegistry) db := by
  unfold encodeRecord
  split
  · next h =>
    refine wp_pure fun _ => ⟨.refl db, ?_⟩
    rw [EncodedAs, h]
    exact And.intro rfl rfl
  · next f h =>
    have hgrows : Grows p db.catalog.fieldRegistry
        (db.catalog.fieldRegistry.serializeRecordV5Durable p.normSq lobe r (some f)).2.2.2 :=
      (Grows.refl _).split lobe r f
    refine wp_makeWith fun _ => ⟨hgrows, fun _ => ⟨quiet_fieldDict hgrows, ?_⟩⟩
    rw [EncodedAs, h]
    exact And.intro rfl rfl

lemma newKey_spec (c : Catalog) (lobeName : Text) (lobe : UInt16) (hash : BitVec 48)
    (fields : Fields) (micros : ℕ) : (newKey p c lobeName lobe hash fields micros).lobeId = lobe ∧
      (newKey p c lobeName lobe hash fields micros).gravityHash = hash ∧
        (newKey p c lobeName lobe hash fields micros).seq = c.recordSeq ∧
          (newKey p c lobeName lobe hash fields micros).timestampNorm =
            normalizeTimestamp micros &&& 0x1FFFFF := by
  unfold newKey
  dsimp only
  split <;> exact ⟨rfl, rfl, rfl, rfl⟩

/-- What a record was made of. -/
structure MadeOf (lobeName : Text) (lobe : UInt16) (place : Placement) (fields : Fields)
    (entries : List AnchorEntry) (x : Insertion) : Prop where
  lobeName : x.record.lobeName = lobeName
  lobe : x.key.lobeId = lobe
  fields : x.record.fields = fields
  entries : x.entries = entries
  spec : x.spec = place.spec
  linked : x.linked = place.linked

lemma does_prepare {idx : ℕ} {place : Placement} {search : Option Text}
    (entries : List AnchorEntry) (hname : db.catalog.Names lobeName lobe)
    (hsearch : search = db.catalog.searchField lobeName) (hidx : idx < l.command.size)
    (hplace : place.linked = false → ∀ h, place.spec.bind (·.computeHash p fields) = some h →
      place.hash = h) :
    Does p I l start (prepare p l.tick idx lobeName lobe place fields search entries)
      (fun x db' => Quiet p db db' ∧ Inserted p l db db' x ∧
        MadeOf lobeName lobe place fields entries x) db := by
  subst hsearch
  -- two counters are drawn, then the dimensions are checked and the record is encoded
  refine wp_bind (wp_makeWith fun _ => ⟨trivial, fun _ => ?_⟩)
  refine wp_bind (wp_makeWith fun _ => ⟨trivial, fun _ => ?_⟩)
  have h₁ : Quiet p db (db.apply p .takeLid) := quiet_of_leaves db rfl rfl
  have h₂ := h₁.trans (quiet_of_leaves (c := .takeSeq) _ rfl rfl)
  obtain ⟨hkl, hkh, hks, hkt⟩ := newKey_spec (p := p) (db.apply p .takeLid).catalog lobeName lobe
    place.hash fields (l.tick.now + idx)
  generalize newKey p (db.apply p .takeLid).catalog lobeName lobe place.hash fields
    (l.tick.now + idx) = key at *
  let r : Record := ⟨Lid.new lobe (l.tick.lidTime idx) db.catalog.lidSeq db.catalog.bootEpoch,
    lobeName, fields, l.tick.now, l.tick.now⟩
  refine wp_call (does_checkDim ((db.apply p .takeLid).apply p .takeSeq) r)
    fun _ db₃ _ ⟨h₃, hdim⟩ => ?_
  refine wp_call (does_encodeRecord lobe r _) fun encoded db₄ _ ⟨h₄, henc⟩ => ?_
  refine wp_pure fun _ => ?_
  have hq : Quiet p db db₄ := (h₂.trans h₃).trans h₄
  have hlid : db.catalog.lidSeq + 1 ≤ db₄.catalog.lidSeq :=
    h₃.later.lidSeq.trans h₄.later.lidSeq
  have hseq : db.catalog.recordSeq + 1 ≤ db₄.catalog.recordSeq :=
    h₃.later.recordSeq.trans h₄.later.recordSeq
  refine ⟨hq, ⟨?_, ?_, ?_, ⟨idx, hidx, hkt⟩, ?_, ?_, hdim.mono h₄.later⟩, rfl, hkl, rfl,
    rfl, rfl, rfl⟩
  · show db₄.catalog.Names lobeName key.lobeId
    rw [hkl]
    exact hq.later.names_iff.mpr hname
  · refine ⟨l.tick.lidTime idx, db.catalog.lidSeq, ?_, le_rfl, hlid⟩
    show Lid.new lobe _ _ _ = Lid.new key.lobeId ..
    rw [hkl, hq.later.epoch]
  · rw [hks]
    exact ⟨le_rfl, hseq⟩
  · intro hlinked h hh
    show key.gravityHash = h
    rw [hkh]
    exact hplace hlinked h hh
  · refine ⟨_, _, h₃.later.names, ?_, .refl _⟩
    show EncodedAs p _ key.lobeId r (db₄.catalog.searchField lobeName) _ _
    rw [hkl, hq.later.search]
    exact henc

lemma does_lockShards (is : List ℕ) :
    Does p I l start (lockShards is) (fun _ db' => Quiet p db db') db :=
  wp_each (J := fun _ db' => Quiet p db db')
    (fun _ _ db' _ h => wp_makeWhen fun _ _ =>
      ⟨trivial, fun _ => h.trans (quiet_of_leaves db' rfl rfl)⟩)
    (.refl db)

lemma does_unlockShards (is : List ℕ) :
    Does p I l start (unlockShards is) (fun _ db' => Quiet p db db') db :=
  wp_each (J := fun _ db' => Quiet p db db')
    (fun _ _ db' _ h => wp_make fun _ => ⟨trivial, fun _ => h.trans (quiet_of_leaves db' rfl rfl)⟩)
    (.refl db)

/-! ### A record that is there -/

lemma locate_eq_some (hb : Base db) {message : Text} {b : Blob}
    (h : db.locate message lid = .ok (some (k, b))) :
    db.trees.identity[lid]? = some k ∧ db.trees.spatial[k]? = some b := by
  unfold Db.locate at h
  split at h
  · cases h
  · next bytes hbytes =>
    rw [spatialKeyOf_of_length (hb.identity _ _ hbytes).1] at h
    obtain ⟨b', hb', heq⟩ := map_eq_some_iff.mp (Except.ok.inj h)
    cases heq
    exact ⟨hbytes, hb'⟩

lemma fetch_eq_some (hb : Base db) {message name : Text} {b : Blob}
    (h : db.fetch message name lid = .ok (some (k, b, r))) :
    db.trees.identity[lid]? = some k ∧ db.trees.spatial[k]? = some b ∧
      db.decode name (keyLobe k) k b = some r := by
  unfold Db.fetch at h
  split at h
  · cases h
  · cases h
  · next hlocate =>
    split at h <;> cases h
    · next hdecode =>
      exact and_assoc.mp ⟨locate_eq_some hb hlocate, hdecode⟩

lemma fetchPlain_eq_ok (hb : Base db) {b : Blob} (h : db.fetchPlain lid = .ok (k, b, r)) :
    db.trees.identity[lid]? = some k ∧ db.trees.spatial[k]? = some b ∧
      deserializeRecord b (db.catalog.lobeNameForId (keyLobe k))
        (db.catalog.fieldRegistry.getDict (keyLobe k)) = some r := by
  unfold Db.fetchPlain at h
  split at h
  · cases h
  · cases h
  · next hlocate =>
    split at h <;> cases h
    · next hdecode =>
      exact and_assoc.mp ⟨locate_eq_some hb hlocate, hdecode⟩

variable {stars : List (Text × Value)}

lemma placementHash_eq {c : Catalog} {lobe : Text} {spec : Option GravitySpec} {h : BitVec 48}
    (hh : spec.bind (·.computeHash p fields) = some h) :
    placementHash p c lobe spec stars fields = h := by
  rw [placementHash, hh, getD_some]

lemma does_placePut (stmt : PutStmt) (fields : Fields) (stars : List (Text × Value)) :
    Does p I l start (placePut p stmt fields stars) (fun place db' => db' = db ∧
      (place.linked = true → stmt.link.isSome) ∧
        (place.linked = false → place.spec = db.catalog.getGravitySpec stmt.lobe ∧
          ∀ h, place.spec.bind (·.computeHash p fields) = some h → place.hash = h)) db := by
  unfold placePut
  split
  · next link hlink =>
    refine wp_bind (wp_query fun _ hash _ => wp_pure fun _ => ?_)
    exact ⟨rfl, by simp [hlink], by simp⟩
  · exact wp_ask fun _ => ⟨rfl, by simp, fun _ => ⟨rfl, fun h hh => placementHash_eq hh⟩⟩

lemma findSome?_free
    (h : (entries.findSome? fun e => dictionary[e.2.2]?.map fun lid => (e, lid)) = none) :
    ∀ e ∈ entries, dictionary[e.2.2]? = none := by
  intro e he
  simpa using findSome?_eq_none_iff.mp h e he

section

variable (hI : ∀ db, I db → Base db)

include hI

lemma does_executeUpsert (hputs : l.command.puts = true)
    (new : Fields) (hname : db.catalog.Names lobeName lid.lobeId) :
    Does p I l start (executeUpsert p l.tick lid new lobeName)
      (fun _ db' => Later p db.catalog db'.catalog) db := by
  refine wp_bind (wp_query fun hi found hfound => ?_)
  split
  · trivial
  · next key blob old =>
    obtain ⟨hid, hspatial, hdecode⟩ := fetch_eq_some (hI _ hi) hfound
    obtain ⟨-, hkey⟩ := (hI _ hi).identity _ _ hid
    obtain ⟨-, hblob, -⟩ := (hI _ hi).spatial _ _ hspatial
    obtain ⟨hold, rfl⟩ := decode_eq_some hdecode
    have hnames : db.catalog.Names old.lobeName (keyLobe key) := hkey ▸ hname
    refine wp_bind (wp_ask fun _ => ?_)
    let record : Record :=
      { old with fields := mergeFields old.fields new, updatedAt := l.tick.now }
    refine wp_call (does_checkDim db record) fun _ db₁ _ ⟨h₁, hdim⟩ => ?_
    refine wp_call (does_encodeRecord (keyLobe key) record _) fun encoded db₂ _ ⟨h₂, henc⟩ => ?_
    have hq := h₁.trans h₂
    have hrevised : Revised p l db db₂ ⟨key, blob, old, none, record, encoded⟩ := by
      refine ⟨⟨lid, hid⟩, hspatial, hdecode, hnames, ⟨new, rfl⟩, _, _, h₁.later.names, ?_, .refl _⟩
      rw [hq.later.search]
      exact henc
    refine wp_bind (wp_make fun _ =>
      ⟨⟨hputs, db, hi, hq, hrevised, rfl, hdim.mono h₂.later⟩, fun _ => ?_⟩)
    refine wp_bind (wp_make fun _ => ⟨trivial, fun _ => ?_⟩)
    refine wp_bind (wp_make fun _ => ⟨⟨hq.later.names_iff.mpr hnames, ?_⟩, fun _ => ?_⟩)
    · rw [← hblob, ← hold]
    · exact wp_pure fun _ => hq.later

lemma does_createLinkRecord {stmt : PutStmt}
    (hl : l.command = .put stmt) (hlinks : l.command.Links) (source : Lid) (link : LinkClause) :
    Does p I l start (createLinkRecord p source link)
      (fun _ db' => Later p db.catalog db'.catalog) db := by
  refine wp_bind (wp_query fun _ found _ => ?_)
  split
  · exact wp_pure fun _ => .refl _
  · next target _ _ _ =>
    refine wp_bind (wp_query fun hi read hread => ?_)
    obtain ⟨key, blob, old⟩ := read
    obtain ⟨hid, hspatial, hdecode⟩ := fetchPlain_eq_ok (hI _ hi) hread
    have hgrows : Grows p db.catalog.fieldRegistry
        (db.catalog.fieldRegistry.serializeRecordV2Durable (keyLobe key)
          (withLink old link.relationName target.lid)).2.2 :=
      (Grows.refl _).number (keyLobe key) (withLink old link.relationName target.lid)
    refine wp_bind (wp_makeWith fun _ => ⟨hgrows, fun _ => ?_⟩)
    have hq := quiet_fieldDict hgrows
    exact wp_make fun _ =>
      ⟨⟨hlinks, by simp [hl], db, hi, hq, ⟨⟨source, hid⟩, hspatial, hdecode, rfl, rfl, rfl⟩⟩,
        fun _ => hq.later⟩

lemma does_linkPut {stmt : PutStmt} (hl : l.command = .put stmt) (lid : Lid) :
    Does p I l start (linkPut p stmt lid) (fun _ db' => Later p db.catalog db'.catalog) db := by
  unfold linkPut
  split
  · next link hlink =>
    refine does_createLinkRecord hI hl ?_ _ _
    rw [hl, Command.Links, hlink]
    rfl
  · exact wp_pure fun _ => .refl _

lemma does_putFresh {stmt : PutStmt} (hl : l.command = .put stmt)
    (hname : db.catalog.Names stmt.lobe lobe)
    (hentries : entries = anchorEntries p (db.catalog.getAnchors stmt.lobe) lobe fields)
    (hfree : ∀ e ∈ entries, db.trees.dictionary[e.2.2]? = none) :
    Acts p I l start (putFresh p l.tick stmt lobe fields stars entries) db := by
  refine wp_call (does_placePut stmt fields stars) fun place db₀ _ ⟨hdb, hlink, hspec⟩ => ?_
  subst hdb
  refine wp_bind (wp_ask fun hi => ?_)
  refine wp_call (does_prepare entries hname rfl (by simp [hl, Command.size])
    fun hlinked => (hspec hlinked).2) fun x db' _ ⟨hq, hins, hof⟩ => ?_
  have hall : InsertedAll p l start db₀ db' [x] := by
    constructor
    case each => exact fun y hy => mem_singleton.mp hy ▸ hins
    case seqs => exact pairwise_singleton _ _
    case lids => exact pairwise_singleton _ _
    case disjoint => exact pairwise_singleton _ _
    all_goals
      intro y hy
      obtain rfl := mem_singleton.mp hy
    case entries =>
      rw [EntriesOf, hl]
      rw [hof.entries, hof.lobe, hof.fields, hof.lobeName, hentries, getAnchors,
        getAnchors, hq.later.anchors]
    case free =>
      intro e he
      rw [hq.trees]
      exact hfree e (hof.entries ▸ he)
    case spec =>
      intro hlinked
      rw [hof.linked] at hlinked
      rw [hof.spec, hof.lobeName, (hspec hlinked).1, getGravitySpec, getGravitySpec,
        hq.gravitySpecs]
      exact .inl rfl
    case linked => exact fun hlinked => .inl ⟨stmt, hl, hlink (hof.linked ▸ hlinked)⟩
  refine wp_bind (wp_make fun _ => ⟨⟨by rw [hl]; rfl, db₀, hi, hq.toSince, hall⟩, fun _ => ?_⟩)
  refine wp_bind (wp_make fun _ => ⟨trivial, fun _ => ?_⟩)
  refine wp_call (does_linkPut hI hl _) fun _ db'' _ hlater => ?_
  refine wp_bind (wp_make fun _ => ⟨⟨hlater.names_iff.mpr ?_, ?_⟩, fun _ => ?_⟩)
  · rw [← hof.lobe]
    exact hins.names
  · rw [← hof.lobe]
    exact hins.lobeId_lid
  · exact wp_done

lemma does_putLocked {stmt : PutStmt} (hl : l.command = .put stmt)
    (hname : db.catalog.Names stmt.lobe lobe)
    (hentries : entries = anchorEntries p (db.catalog.getAnchors stmt.lobe) lobe fields) :
    Acts p I l start (putLocked p l.tick stmt lobe fields stars entries) db := by
  refine wp_bind (wp_ask fun hi => ?_)
  split
  · next anchor value key lid hfound =>
    split
    · obtain ⟨e, he, hlid⟩ := exists_of_findSome?_eq_some hfound
      obtain ⟨lid', hdict, heq⟩ := map_eq_some_iff.mp hlid
      obtain ⟨rfl, rfl⟩ := Prod.mk.inj heq
      obtain ⟨-, v, -, -, hkey⟩ := mem_anchorEntries.mp (hentries ▸ he)
      have hlobe : Lid.lobeId lid' = lobe := by
        rw [(hI _ hi).dictionary _ _ hdict, hkey, keyLobe_dictionaryKey]
      exact wp_post (does_executeUpsert hI (by rw [hl]; rfl) fields (hlobe ▸ hname)) fun _ _ _ _ =>
        trivial
    · trivial
  · next hfound => exact does_putFresh hI hl hname hentries (findSome?_free hfound)

lemma does_executePut {stmt : PutStmt} (hl : l.command = .put stmt) :
    Acts p I l start (executePut p l.tick stmt) db := by
  refine wp_call (does_getOrCreateLobe stmt.lobe) fun lobe db₁ _ ⟨hname, hspecs⟩ => ?_
  obtain ⟨fields, stars⟩ := buildFields p stmt.lobe stmt.fields
  refine wp_bind (wp_ask fun _ => ?_)
  refine wp_call (does_checkStars ..) fun _ db' _ hdb => ?_
  subst hdb
  refine wp_call (does_registerStars _ _) fun _ db₂ _ ⟨h₂, _⟩ => ?_
  refine wp_bind (wp_ask fun _ => ?_)
  refine wp_call (does_lockShards _) fun _ db₃ _ h₃ => ?_
  have hunlock : ∀ db', Acts p I l start (unlockShards (shards p ((anchorEntries p
      (db₂.catalog.getAnchors stmt.lobe) lobe fields).map (·.2.2)))) db' :=
    fun db' => wp_post (does_unlockShards _) fun _ _ _ _ => trivial
  refine wp_finally hunlock ?_
  refine wp_post (does_putLocked hI hl ?_ ?_) fun _ db' _ _ => hunlock db'
  · exact h₃.later.names_iff.mpr (h₂.later.names_iff.mpr hname)
  · rw [getAnchors, getAnchors, h₃.later.anchors]

end

/-! ### PUT BATCH -/

lemma EncodedIn.widen {d : Db} {x : Encoding} (hab : Later p a.catalog b.catalog)
    (h : EncodedIn p b c lobe r x) (hcd : Later p c.catalog d.catalog) :
    EncodedIn p a d lobe r x := by
  obtain ⟨reg, reg', hreg, henc, hreg'⟩ := h
  refine ⟨reg, reg', hab.names.trans p hreg, ?_, hreg'.trans p hcd.names⟩
  rwa [hcd.search]

variable {x : Insertion}

/-- A record that was made between two stores was made between any two around them. -/
lemma Inserted.widen {d : Db} (hab : Later p a.catalog b.catalog) (h : Inserted p l b c x)
    (hcd : Later p c.catalog d.catalog) : Inserted p l a d x := by
  obtain ⟨time, n, hlid, hle, hlt⟩ := h.lid
  exact {
    names := hcd.names_iff.mpr h.names
    lid := ⟨time, n, hcd.epoch ▸ hlid, hab.lidSeq.trans hle, hlt.trans_le hcd.lidSeq⟩
    seq := ⟨hab.recordSeq.trans h.seq.1, h.seq.2.trans_le hcd.recordSeq⟩
    time := h.time
    hash := h.hash
    encoded := h.encoded.widen hab hcd
    dim := h.dim.mono hcd }

lemma MadeIn.before {lobe' : UInt16} (h : MadeIn a b lobe lid) (h' : MadeIn b c lobe' lid')
    (hepoch : c.catalog.bootEpoch = b.catalog.bootEpoch) : MadeBefore c lid lid' := by
  obtain ⟨time, m, hlid, -, hm⟩ := h
  obtain ⟨time', n, hlid', hn, hn'⟩ := h'
  exact ⟨lobe, lobe', time, time', m, n, hm.trans_le hn, hn', hepoch ▸ hlid, hlid'⟩

lemma MadeBefore.mono (h : MadeBefore a lid lid') (hlater : Later p a.catalog b.catalog) :
    MadeBefore b lid lid' := by
  obtain ⟨lobe, lobe', time, time', m, n, hmn, hn, hlid, hlid'⟩ := h
  exact ⟨lobe, lobe', time, time', m, n, hmn, hn.trans_le hlater.lidSeq, hlater.epoch ▸ hlid,
    hlater.epoch ▸ hlid'⟩

lemma EntriesOf.mono (h : EntriesOf p l a x) (hlater : Later p a.catalog b.catalog) :
    EntriesOf p l b x := by
  unfold EntriesOf at h ⊢
  rwa [getAnchors, hlater.anchors, ← getAnchors]

namespace InsertedAll

lemma nil (db db' : Db) : InsertedAll p l start db db' [] where
  each _ h := by cases h
  seqs := .nil
  lids := .nil
  entries _ h := by cases h
  free _ h := by cases h
  disjoint := .nil
  spec _ h := by cases h
  linked _ h := by cases h

/-- Records stay as they were made, except that their batch may declare a gravity. -/
lemma mono (h : InsertedAll p l start a b xs) (hbc : Since p b c)
    (hgravity : l.command.StarredBatch start ∨ c.catalog.gravitySpecs = b.catalog.gravitySpecs) :
    InsertedAll p l start a c xs where
  each x hx := (h.each x hx).widen (.refl _) hbc.later
  seqs := h.seqs
  lids := h.lids.imp fun hlid => hlid.mono hbc.later
  entries x hx := (h.entries x hx).mono hbc.later
  free x hx e he := by
    rw [hbc.trees]
    exact h.free x hx e he
  disjoint := h.disjoint
  spec x hx hlinked := by
    rcases h.spec x hx hlinked with hspec | hspec
    · rcases hgravity with hstar | hsame
      · cases hs : x.spec with
        | none => exact .inr ⟨rfl, hstar⟩
        | some s => exact .inl (hbc.later.gravity _ _ (hspec.symm.trans hs)).symm
      · exact .inl (by rw [hspec, getGravitySpec, getGravitySpec, hsame])
    · exact .inr hspec
  linked := h.linked

lemma concat (h : InsertedAll p l start a b xs)
    (hab : Later p a.catalog b.catalog) (hbc : Quiet p b c) (hx : Inserted p l b c x)
    (hentries : EntriesOf p l c x) (hfree : ∀ e ∈ x.entries, b.trees.dictionary[e.2.2]? = none)
    (hdisjoint : ∀ y ∈ xs, ∀ e ∈ y.entries, ∀ e' ∈ x.entries, e.2.2 ≠ e'.2.2)
    (hspec : x.linked = false → x.spec = c.catalog.getGravitySpec x.record.lobeName ∨
      (x.spec = none ∧ l.command.StarredBatch start))
    (hlinked : x.linked = true → (∃ stmt, l.command = .put stmt ∧ stmt.link.isSome) ∨
      ∃ stmt, l.command = .putBatch stmt ∧ stmt.link.isSome) :
    InsertedAll p l start a c (xs ++ [x]) := by
  have hmono := h.mono hbc.toSince (.inr hbc.gravitySpecs)
  have hpair : ∀ {R : Insertion → Insertion → Prop}, xs.Pairwise R → (∀ y ∈ xs, R y x) →
      (xs ++ [x]).Pairwise R := fun hxs hR =>
    pairwise_append.mpr ⟨hxs, pairwise_singleton _ _, fun y hy z hz =>
      mem_singleton.mp hz ▸ hR y hy⟩
  exact {
    each := forall_mem_concat hmono.each (hx.widen hab (.refl _))
    seqs := hpair h.seqs fun y hy => (h.each y hy).seq.2.trans_le hx.seq.1
    lids := hpair hmono.lids fun y hy => (h.each y hy).lid.before hx.lid hbc.later.epoch
    entries := forall_mem_concat hmono.entries hentries
    free := forall_mem_concat hmono.free fun e he => by
      rw [hbc.trees]
      exact hfree e he
    disjoint := hpair h.disjoint hdisjoint
    spec := forall_mem_concat hmono.spec hspec
    linked := forall_mem_concat hmono.linked hlinked }

end InsertedAll

lemma does_batchLoop {α γ : Type} {one : ℕ → γ → α → Run α} {J : α → Db → Prop} {given : List γ}
    {n : ℕ} {acc : α} (hone : ∀ i x acc db, i < n + given.length → x ∈ given → I db → J acc db →
      Does p I l start (one i x acc) J db) (h : J acc db) :
    Does p I l start (batchLoop one n given acc) J db := by
  induction given generalizing n acc db with
  | nil => exact wp_pure fun _ => h
  | cons x given ih =>
    refine wp_assume fun hi => wp_call
      (hone n x acc db (by simp) mem_cons_self hi h) fun acc' db' _ h' => ?_
    refine ih (fun i y acc db hi hy => hone i y acc db ?_ (.tail _ hy)) h'
    rw [length_cons]
    omega

lemma does_commitBatch {hasGhosts : Bool} {db₀ : Db} (hputs : l.command.puts = true) (hi : I db₀)
    (hsince : Since p db₀ db) (hall : InsertedAll p l start db₀ db xs) :
    Does p I l start (commitBatch lobe hasGhosts xs)
      (fun _ db' => Later p db.catalog db'.catalog) db := by
  refine wp_bind (wp_make fun _ => ⟨⟨hputs, db₀, hi, hsince, hall⟩, fun _ => ?_⟩)
  refine wp_each (J := fun _ (db' : Db) => Later p db.catalog db'.catalog) (fun x _ db' _ h => ?_)
    (later_of_leavesCatalog db (c := .insert xs) rfl)
  exact wp_make fun _ => ⟨trivial, fun _ => h.trans (later_of_leavesCatalog db' rfl)⟩

/-- What a batch that started in `db₀` has gathered. -/
structure Gathered (l : DbLabel) (start : Db) (stmt : PutBatchStmt) (lobe : UInt16)
    (known : BatchStart)
    (db₀ : Db) (acc : BatchAcc) (db : Db) : Prop where
  since : Since p db₀ db
  inserts : InsertedAll p l start db₀ db acc.inserts
  claimed : ∀ x ∈ acc.inserts, ∀ e ∈ x.entries, acc.claimed[e.2.2]? ≠ none
  claimedLobe : ∀ (e : Key) (lid : Lid), acc.claimed[e]? = some lid → lid.lobeId = lobe
  pending : ∀ x ∈ acc.pending, Lid.lobeId x.1 = lobe
  /-- The gravity is that of the start, unless the batch declared it. -/
  gravity : known.spec = db.catalog.getGravitySpec stmt.lobe ∨
    (known.spec = none ∧ l.command.StarredBatch start)

lemma buildFields_stars (lobe : Text) (given : List PutField) :
    (buildFields p lobe given).2 ≠ [] → ∃ f ∈ given, f.gravity = true := by
  intro h
  obtain ⟨x, hx⟩ := exists_mem_of_ne_nil _ h
  obtain ⟨f, hf, -⟩ := mem_map.mp hx
  exact ⟨f, (mem_filter.mp hf).1, (mem_filter.mp hf).2⟩

lemma batchConflict_none {claimed : ExtTreeMap Key Lid}
    (h : batchConflict claimed dictionary entries = none) :
    ∀ e ∈ entries, claimed[e.2.2]? = none ∧ dictionary[e.2.2]? = none := by
  intro e he
  have := findSome?_eq_none_iff.mp h e he
  rw [map_eq_none_iff] at this
  split at this
  · cases this
  · next hclaimed => exact ⟨hclaimed, this⟩

lemma batchConflict_some {claimed : ExtTreeMap Key Lid} {e : AnchorEntry}
    (h : batchConflict claimed dictionary entries = some (e, lid)) :
    e ∈ entries ∧ (claimed[e.2.2]? = some lid ∨ dictionary[e.2.2]? = some lid) := by
  obtain ⟨e', he', hlid⟩ := exists_of_findSome?_eq_some h
  obtain ⟨lid', hfound, heq⟩ := map_eq_some_iff.mp hlid
  cases heq
  refine ⟨he', ?_⟩
  split at hfound
  · next hclaimed => exact .inl (hclaimed.trans hfound)
  · exact .inr hfound

lemma getElem?_foldl_insert {m : ExtTreeMap Key Lid} {e : Key}
    (h : (entries.foldl (fun m e => m.insert e.2.2 lid) m)[e]? = some lid') :
    m[e]? = some lid' ∨ lid' = lid := by
  induction entries generalizing m with
  | nil => exact .inl h
  | cons entry entries ih =>
    rcases ih h with h | h
    · rw [OrdMap.getElem?_insert] at h
      split at h
      · exact .inr (some.inj h).symm
      · exact .inl h
    · exact .inr h

lemma getElem?_foldl_insert_ne_none {m : ExtTreeMap Key Lid}
    (h : m[k]? ≠ none ∨ ∃ e ∈ entries, e.2.2 = k) :
    (entries.foldl (fun m e => m.insert e.2.2 lid) m)[k]? ≠ none := by
  induction entries generalizing m with
  | nil => exact h.resolve_right (by simp)
  | cons entry entries ih =>
    refine ih ?_
    rw [OrdMap.getElem?_insert]
    split
    · exact .inl (by simp)
    · next hne =>
      refine h.imp_right fun ⟨e, he, hek⟩ => ⟨e, (mem_cons.mp he).resolve_left ?_, hek⟩
      rintro rfl
      exact hne hek

lemma BatchStart.place_spec (known : BatchStart) (c : Catalog) (lobe : Text)
    (stars : List (Text × Value)) (fields : Fields) :
    ((known.place p c lobe stars fields).linked = true → known.linkHash.isSome) ∧
      ((known.place p c lobe stars fields).linked = false →
        (known.place p c lobe stars fields).spec = known.spec ∧
          ∀ h, (known.place p c lobe stars fields).spec.bind (·.computeHash p fields) = some h →
            (known.place p c lobe stars fields).hash = h) := by
  unfold BatchStart.place
  split
  · next hash hlink => exact ⟨fun _ => by simp [hlink], by simp⟩
  · exact ⟨by simp, fun _ => ⟨rfl, fun h hh => placementHash_eq hh⟩⟩

lemma does_batchOne (hI : ∀ db, I db → Base db) {stmt : PutBatchStmt}
    (hl : l.command = .putBatch stmt) {known : BatchStart} {db₀ : Db}
    (hname : db₀.catalog.Names stmt.lobe lobe)
    (hanchors : known.anchors = db₀.catalog.getAnchors stmt.lobe)
    (hsearch : known.search = db₀.catalog.searchField stmt.lobe)
    (hlink : known.linkHash.isSome → stmt.link.isSome)
    (hstart : known.spec = none → start.catalog.getGravitySpec stmt.lobe = none) {idx : ℕ}
    {given : List PutField} {acc : BatchAcc} (hidx : idx < stmt.records.length)
    (hgiven : given ∈ stmt.records) (hi : I db)
    (h : Gathered (p := p) l start stmt lobe known db₀ acc db) :
    Does p I l start (batchOne p l.tick stmt lobe known idx given acc)
      (Gathered (p := p) l start stmt lobe known db₀) db := by
  unfold batchOne
  have hstars := buildFields_stars (p := p) stmt.lobe given
  generalize buildFields p stmt.lobe given = built at *
  obtain ⟨fields, stars⟩ := built
  refine wp_call (does_checkStars ..) fun _ db' _ hdb => ?_
  subst hdb
  refine wp_call (does_registerStars _ _) fun _ db₁ _ ⟨h₁, hno⟩ => ?_
  -- a star of this record may have declared the gravity of the lobe
  have hstarred : (known.spec = none ∧ l.command.StarredBatch start) ∨ db₁ = db' := by
    by_cases hs : stars = []
    · exact .inr (hno (.inl hs))
    · cases hspec : known.spec with
      | none =>
        refine .inl ⟨rfl, ?_⟩
        rw [hl]
        exact ⟨hstart hspec, given, hgiven, hstars hs⟩
      | some s =>
        refine .inr (hno (.inr ?_))
        rcases h.gravity with hg | hg
        · rw [← hg, hspec]
          rfl
        · rw [hspec] at hg
          cases hg.1
  have hg : Gathered (p := p) l start stmt lobe known db₀ acc db₁ := {
    since := h.since.trans h₁
    inserts := h.inserts.mono h₁ (hstarred.imp And.right fun heq => by rw [heq])
    claimed := h.claimed
    claimedLobe := h.claimedLobe
    pending := h.pending
    gravity := by
      rcases hstarred with hstar | rfl
      · exact .inr hstar
      · exact h.gravity }
  have hname₁ : db₁.catalog.Names stmt.lobe lobe := hg.since.later.names_iff.mpr hname
  refine wp_bind (wp_ask fun hi₁ => ?_)
  split
  · next anchor value key lid hconflict =>
    -- a conflict is merged later or refuses the batch: the key it names is of this lobe
    split
    · obtain ⟨he, hfound⟩ := batchConflict_some hconflict
      obtain ⟨-, v, -, -, hkey⟩ := mem_anchorEntries.mp he
      refine wp_pure fun _ => { hg with pending := forall_mem_concat hg.pending ?_ }
      rcases hfound with hfound | hfound
      · exact hg.claimedLobe _ _ hfound
      · rw [(hI _ hi₁).dictionary _ _ hfound, hkey, keyLobe_dictionaryKey]
    · trivial
  · next hconflict =>
    -- no conflict: the record is prepared, and its keys are claimed for the batch
    have hfree := batchConflict_none hconflict
    refine wp_bind (wp_ask fun _ => ?_)
    obtain ⟨hlinked, hspec⟩ := known.place_spec (p := p) db₁.catalog stmt.lobe stars fields
    refine wp_call (does_prepare _ hname₁ (hsearch.trans (hg.since.later.search _).symm)
      (by rw [hl]; exact hidx) fun hlk => (hspec hlk).2) fun x db₂ _ ⟨h₂, hins, hof⟩ => ?_
    have hall : InsertedAll p l start db₀ db₂ (acc.inserts ++ [x]) := by
      refine hg.inserts.concat hg.since.later h₂ hins ?_ ?_ ?_ ?_ ?_
      · rw [EntriesOf, hl]
        rw [hof.entries, hof.lobe, hof.fields, hof.lobeName, hanchors, getAnchors,
          getAnchors, h₂.later.anchors, hg.since.later.anchors]
      · exact fun e he => (hfree e (hof.entries ▸ he)).2
      · intro y hy e he e' he' heq
        exact hg.claimed y hy e he (heq ▸ (hfree e' (hof.entries ▸ he')).1)
      · intro hlk
        rw [hof.linked] at hlk
        rw [hof.spec, (hspec hlk).1, hof.lobeName, getGravitySpec, h₂.gravitySpecs]
        exact hg.gravity
      · exact fun hlk => .inr ⟨stmt, hl, hlink (hlinked (hof.linked ▸ hlk))⟩
    refine wp_pure fun _ => {
      since := hg.since.trans h₂.toSince
      inserts := hall
      claimed := forall_mem_concat
        (fun y hy e he => getElem?_foldl_insert_ne_none (.inl (hg.claimed y hy e he)))
        fun e he => getElem?_foldl_insert_ne_none (.inr ⟨e, hof.entries ▸ he, rfl⟩)
      claimedLobe := fun e lid he => ?_
      pending := hg.pending
      gravity := by
        rw [getGravitySpec, h₂.gravitySpecs]
        exact hg.gravity }
    rcases getElem?_foldl_insert he with he | rfl
    · exact hg.claimedLobe e lid he
    · rw [hins.lobeId_lid, hof.lobe]

lemma does_batchLinkHash (stmt : PutBatchStmt) : Does p I l start (batchLinkHash p stmt)
      (fun hash db' => db' = db ∧ (hash.isSome → stmt.link.isSome)) db := by
  unfold batchLinkHash
  split
  · next link hlink =>
    exact wp_bind (wp_query fun _ hash _ => wp_pure fun _ => ⟨rfl, by simp [hlink]⟩)
  · exact wp_pure fun _ => ⟨rfl, by simp⟩

lemma does_putBatchLocked (hI : ∀ db, I db → Base db) {stmt : PutBatchStmt}
    (hl : l.command = .putBatch stmt) {hasGhosts : Bool} {anchors : List Text}
    {linkHash : Option (BitVec 48)} (hname : db.catalog.Names stmt.lobe lobe)
    (hanchors : anchors = db.catalog.getAnchors stmt.lobe)
    (hlink : linkHash.isSome → stmt.link.isSome)
    (hstart : db.catalog.getGravitySpec stmt.lobe = none →
      start.catalog.getGravitySpec stmt.lobe = none) :
    Acts p I l start (putBatchLocked p l.tick stmt lobe hasGhosts anchors linkHash) db := by
  refine wp_bind (wp_ask fun hi => ?_)
  refine wp_call (does_batchLoop (J := Gathered (p := p) l start stmt lobe
    ⟨anchors, db.catalog.getGravitySpec stmt.lobe, db.catalog.searchField stmt.lobe, linkHash⟩ db)
    (fun i given acc db' hlt hmem hi' h => does_batchOne hI hl hname hanchors rfl hlink
      hstart (by simpa using hlt) hmem hi' h) ?_) fun acc db₁ _ hg => ?_
  · exact ⟨.refl db, .nil db db, by simp, by simp, by simp, .inl rfl⟩
  · refine wp_call (does_commitBatch (by rw [hl]; rfl) hi hg.since hg.inserts) fun _ db₂ _ h₂ => ?_
    refine wp_bind (wp_await fun _ _ => ?_)
    refine wp_call (wp_each (J := fun rest db' => db'.catalog.Names stmt.lobe lobe ∧
      ∀ x ∈ rest, Lid.lobeId x.1 = lobe) ?_ ⟨?_, hg.pending⟩) fun _ _ _ _ => wp_done
    · rintro x rest db' _ ⟨hname', hrest⟩
      refine wp_call (does_executeUpsert hI (by rw [hl]; rfl) x.2 (hrest x mem_cons_self ▸ hname'))
        fun _ db'' _ hlater => wp_pure fun _ => ?_
      exact ⟨hlater.names_iff.mpr hname', fun y hy => hrest y (.tail _ hy)⟩
    · exact h₂.names_iff.mpr (hg.since.later.names_iff.mpr hname)

lemma does_executePutBatch (hI : ∀ db, I db → Base db) {stmt : PutBatchStmt}
    (hl : l.command = .putBatch stmt) : Acts p I l start (executePutBatch p l.tick stmt) start := by
  unfold executePutBatch
  split
  · exact wp_done
  split
  · trivial
  · refine wp_call (does_getOrCreateLobe stmt.lobe) fun lobe db₁ _ ⟨hname, hspecs⟩ => ?_
    refine wp_call (does_batchLinkHash stmt) fun linkHash db' _ ⟨hdb, hlink⟩ => ?_
    subst hdb
    refine wp_bind (wp_ask fun _ => wp_bind (wp_ask fun _ => ?_))
    refine wp_call (does_lockShards _) fun _ db₂ _ h₂ => ?_
    have hunlock : ∀ is db', Acts p I l start (unlockShards is) db' :=
      fun is db' => wp_post (does_unlockShards _) fun _ _ _ _ => trivial
    refine wp_finally (hunlock _) ?_
    refine wp_post (does_putBatchLocked hI hl (h₂.later.names_iff.mpr hname) ?_ hlink ?_)
      fun _ db' _ _ => hunlock _ db'
    · rw [getAnchors, getAnchors, h₂.later.anchors]
    · rw [getGravitySpec, h₂.gravitySpecs, hspecs]
      exact id

/-! ### Bulk insert -/

lemma does_executeBulkInsert {records : List BulkRecord}
    (hl : l.command = .bulkInsert lobeName records) :
    Acts p I l start (executeBulkInsert p l.tick lobeName records) db := by
  unfold executeBulkInsert
  split
  · exact wp_done
  · refine wp_call (does_getOrCreateLobe lobeName) fun lobe db₁ _ ⟨hname, hspecs⟩ => ?_
    refine wp_bind (wp_ask fun _ => wp_bind (wp_ask fun hi => ?_))
    refine wp_call (does_batchLoop (J := fun xs db' => Quiet p db₁ db' ∧
      InsertedAll p l start db₁ db' xs) ?_ ⟨.refl db₁, .nil db₁ db₁⟩) fun xs db₂ _ ⟨h₂, hall⟩ =>
        wp_call (does_commitBatch (by rw [hl]; rfl) hi h₂.toSince hall) fun _ _ _ _ => wp_done
    rintro i given xs db' hlt hmem _ ⟨hq, hall⟩
    refine wp_call (does_checkStars ..) fun _ db'' _ hdb => ?_
    subst hdb
    refine wp_call (does_prepare _ (hq.later.names_iff.mpr hname) (hq.later.search _).symm
      (by rw [hl]; simpa [Command.size] using hlt) fun _ h hh => by rw [hh, getD_some])
      fun x db₂ _ ⟨h₂, hins, hof⟩ => wp_pure fun _ => ⟨hq.trans h₂, ?_⟩
    have hnil : x.entries = [] := hof.entries
    refine hall.concat hq.later h₂ hins ?_ (by simp [hnil]) (by simp [hnil]) ?_ ?_
    · rw [EntriesOf, hl]
      exact hnil
    · intro _
      rw [hof.spec, hof.lobeName, getGravitySpec, getGravitySpec, h₂.gravitySpecs, hq.gravitySpecs]
      exact .inl rfl
    · intro hlinked
      rw [hof.linked] at hlinked
      cases hlinked

lemma getElem?_mergeFields (old new : Fields) (f : Text) :
    (mergeFields old new)[f]? = new[f]?.or old[f]? := by
  have hfold : mergeFields old new =
      OrdMap.putAll old (new.toList.map fun x => (x.1, some x.2)) := by
    rw [OrdMap.putAll, foldl_map]
    rfl
  have hwrites : ∀ x ∈ new.toList, x.1 = f → new[f]? = some x.2 := by
    rintro x hx rfl
    exact ExtTreeMap.mem_toList_iff_getElem?_eq_some.mp hx
  rw [hfold]
  cases hnew : new[f]? with
  | some v =>
    rw [some_or]
    refine OrdMap.getElem?_putAll_of_mem (fun w hw hf => ?_)
      (mem_map.mpr ⟨(f, v), ExtTreeMap.mem_toList_iff_getElem?_eq_some.mpr hnew, rfl⟩)
    obtain ⟨x, hx, rfl⟩ := mem_map.mp hw
    rw [← hnew, hwrites x hx hf]
  | none =>
    refine OrdMap.getElem?_putAll_of_not_mem fun w hw hf => ?_
    obtain ⟨x, hx, rfl⟩ := mem_map.mp hw
    cases hnew.symm.trans (hwrites x hx hf)

lemma getElem?_assignedFields {assignments : List (Text × Talk.Literal)} {f : Text}
    (h : ∀ a ∈ assignments, a.1 ≠ f) : (assignedFields p assignments)[f]? = none := by
  have hfold : assignedFields p assignments =
      OrdMap.putAll ∅ (assignments.map fun a => (a.1, some (valueOf p a.2))) := by
    rw [OrdMap.putAll, foldl_map]
    rfl
  rw [hfold, OrdMap.getElem?_putAll_of_not_mem]
  · rfl
  · intro w hw
    obtain ⟨a, ha, rfl⟩ := mem_map.mp hw
    exact h a ha

lemma does_movedKey (hsize : 0 < l.command.size) (lobeName : Text) (key : Key) (fields : Fields) :
    Does p I l start (movedKey p l.tick lobeName key fields) (fun newKey db' => Quiet p db db' ∧
      match newKey with
      | none => gravityHashFor p db.catalog lobeName fields = gravityHashFromBytes key ∧
        (satelliteSatFor p db.catalog lobeName fields).all (· = satFromBytes key) = true
      | some k => k.lobeId = keyLobe key ∧
        k.gravityHash = gravityHashFor p db.catalog lobeName fields ∧
          db.catalog.recordSeq ≤ k.seq ∧ k.seq < db'.catalog.recordSeq ∧ TimedBy l k) db := by
  refine fun _ _ => ⟨fun c hc => ?_, ?_⟩
  · dsimp only at hc
    split at hc <;> cases hc
    trivial
  · intro _
    unfold Prog.after
    dsimp only
    split
    · next c hc =>
      split at hc <;> cases hc
      next hmoves =>
      rw [if_pos hmoves]
      obtain ⟨hkl, hkh, hks, hkt⟩ := newKey_spec (p := p) db.catalog lobeName (keyLobe key)
        (gravityHashFor p db.catalog lobeName fields) fields l.tick.now
      exact ⟨quiet_of_leaves db rfl rfl, hkl, hkh, hks.ge, hks ▸ lt_add_one _, 0, hsize, hkt⟩
    · next hc =>
      split at hc
      · cases hc
      · next hmoves =>
        rw [if_neg hmoves]
        simp only [Bool.or_eq_true, decide_eq_true_eq, not_or, not_not] at hmoves
        refine ⟨.refl db, hmoves.1, ?_⟩
        cases hsat : satelliteSatFor p db.catalog lobeName fields with
        | none => rfl
        | some sat => simpa [hsat] using hmoves.2

lemma gravityHashFor_congr {c c' : Catalog} (hlater : Later p c c')
    (hspecs : c'.gravitySpecs = c.gravitySpecs) (lobe : Text) (fields : Fields) :
    gravityHashFor p c' lobe fields = gravityHashFor p c lobe fields := by
  rw [gravityHashFor, gravityHashFor, computeRecordGravityHash, computeRecordGravityHash,
    getGravitySpec, getGravitySpec, getAnchors, getAnchors, hspecs,
    hlater.anchors]

lemma satelliteSatFor_congr {c c' : Catalog} (hlater : Later p c c') (lobe : Text)
    (fields : Fields) : satelliteSatFor p c' lobe fields = satelliteSatFor p c lobe fields := by
  rw [satelliteSatFor, satelliteSatFor, hlater.satellites]

lemma Shrunk.refl (db : Db) : Shrunk db db :=
  ⟨rfl, fun _ _ h => h, fun _ _ h => h, fun _ _ h => h⟩

lemma Shrunk.delete (h : Shrunk db db') (d : Removal) : Shrunk db (db'.apply p (.delete d)) where
  catalog := h.catalog
  spatial k b hk := by
    rw [Db.spatial_apply] at hk
    rcases OrdMap.getElem?_putAll_eq_some hk with hk | hk
    · exact h.spatial k b hk
    · simp [Change.spatialWrites] at hk
  identity lid k hk := by
    rw [Db.identity_apply] at hk
    rcases OrdMap.getElem?_putAll_eq_some hk with hk | hk
    · exact h.identity lid k hk
    · simp [Change.identityWrites] at hk
  dictionary e lid he := by
    rw [Db.dictionary_apply] at he
    rcases OrdMap.getElem?_putAll_eq_some he with he | he
    · exact h.dictionary e lid he
    · simp [Change.dictionaryWrites] at he

lemma does_indexOne (hl : l.command = .autoAnchorApply stmt) {blob : Blob}
    (hname : db.catalog.Names stmt.lobe lobe) (hspatial : db.trees.spatial[k]? = some blob)
    (hlobe : keyLobe k = lobe) : Does p I l start (indexOne p lobeName lobe stmt.field blob)
      (fun _ db' => db'.trees.spatial = db.trees.spatial ∧ db'.catalog = db.catalog) db := by
  refine wp_bind (wp_ask fun _ => ?_)
  split
  · exact wp_pure fun _ => ⟨rfl, rfl⟩
  · exact wp_pure fun _ => ⟨rfl, rfl⟩
  · next lid value hread =>
    obtain ⟨e, he, heq⟩ := map_eq_some_iff.mp hread
    obtain ⟨rfl, hcontains⟩ := Prod.mk.inj heq
    have hfree : db.trees.dictionary[dictionaryKey lobe stmt.field value]? = none := by
      rwa [ExtTreeMap.contains_eq_isSome_getElem?, isSome_eq_false_iff,
        isNone_iff_eq_none] at hcontains
    exact wp_bind (wp_make fun _ =>
      ⟨⟨stmt, hl, lobe, stmt.field, k, blob, hname, rfl, hspatial, hlobe, hfree,
        lobeName, value, he,
        rfl⟩, fun _ => wp_pure fun _ => ⟨rfl, rfl⟩⟩)

lemma does_indexLoop (hl : l.command = .autoAnchorApply stmt) :
    ∀ {entries : List (Key × Blob)} {db : Db}, db.catalog.Names stmt.lobe lobe →
      (∀ x ∈ entries, db.trees.spatial[x.1]? = some x.2 ∧ keyLobe x.1 = lobe) →
      Acts p I l start (indexLoop (indexOne p lobeName lobe stmt.field) entries) db
  | [], _, _, _ => wp_done
  | x :: xs, db, hname, h => by
    obtain ⟨hspatial, hlobe⟩ := h x mem_cons_self
    refine wp_call (does_indexOne hl hname hspatial hlobe) fun _ db' _ ⟨hsame, hcatalog⟩ => ?_
    refine wp_call (does_indexLoop hl (hcatalog ▸ hname) fun y hy => ?_) fun _ _ _ _ => wp_done
    rw [hsame]
    exact h y (.tail _ hy)

lemma does_registerAnchor (hl : l.command = .autoAnchorApply stmt)
    (hname : db.catalog.Names stmt.lobe lobe) :
    Does p I l start (registerAnchor stmt.lobe stmt.field)
      (fun _ db' => db'.catalog.Names stmt.lobe lobe) db := by
  refine fun _ _ => ⟨fun c hc => ?_, fun _ => ?_⟩
  · dsimp only at hc
    split at hc <;> cases hc
    next hnew =>
    refine ⟨?_, by simpa using hnew, lobe, hname⟩
    rw [hl]
    exact ⟨rfl, rfl⟩
  · unfold Prog.after
    split
    · exact names_apply hname
    · exact hname

lemma does_executeAutoanchorApply (hl : l.command = .autoAnchorApply stmt) :
    Acts p I l start (executeAutoanchorApply p stmt) db := by
  refine does_lobeId fun lobe hname => ?_
  refine wp_call (does_registerAnchor hl hname) fun _ db'' _ hname => ?_
  refine wp_bind (wp_ask fun _ => ?_)
  refine wp_call (does_indexLoop hl hname fun x hx => ?_) fun _ _ _ _ => wp_done
  obtain ⟨hspatial, hprefix⟩ := mem_lobeEntries.mp hx
  exact ⟨hspatial, keyLobe_of_prefix hprefix⟩

lemma does_executeOutcache (lobeName : Text) : Acts p I l start (executeOutcache lobeName) db := by
  refine wp_bind (wp_query fun _ _ _ => does_lobeId fun _ _ => ?_)
  exact wp_bind (wp_make fun _ => ⟨trivial, fun _ => wp_done⟩)

lemma does_executeCreateGhost {spec : GhostSpec} (hl : l.command = .createGhost lobeName spec) :
    Acts p I l start (executeCreateGhost p lobeName spec) db := by
  have hghost : ∃ lobe spec, l.command = .createGhost lobe spec := ⟨lobeName, spec, hl⟩
  refine does_lobeId fun _ _ => wp_bind (wp_ask fun _ => ?_)
  split
  · trivial
  · refine wp_bind (wp_makeWith fun _ => ⟨hghost, fun _ => ?_⟩)
    refine wp_bind (wp_ask fun _ => ?_)
    refine wp_bind (wp_makeWith fun _ => ⟨hghost, fun _ => ?_⟩)
    exact wp_bind (wp_make fun _ => ⟨hghost, fun _ => wp_done⟩)

section

variable (hI : ∀ db, I db → Base db)

include hI

lemma does_setOne (hsize : 0 < l.command.size) {assignments : Fields}
    {found : Record} (hfound : FoundBy p l start found)
    (hname : db.catalog.Names found.lobeName (Lid.lobeId found.lid))
    (hanchor : ∀ f, db.catalog.isAnchor found.lobeName f = true → assignments[f]? = none) :
    Does p I l start (setOne p l.tick assignments found)
      (fun _ db' => Later p db.catalog db'.catalog) db := by
  refine wp_bind (wp_query fun hi read hread => ?_)
  split
  · exact wp_pure fun _ => .refl _
  · next key blob old =>
    obtain ⟨hid, hspatial, hdecode⟩ := fetch_eq_some (hI _ hi) hread
    obtain ⟨-, hkey⟩ := (hI _ hi).identity _ _ hid
    obtain ⟨-, hblob, -⟩ := (hI _ hi).spatial _ _ hspatial
    obtain ⟨hold, hlobe⟩ := decode_eq_some hdecode
    rw [← hlobe] at hname hanchor hdecode ⊢
    have hnames : db.catalog.Names old.lobeName (keyLobe key) := hkey ▸ hname
    refine wp_bind (wp_ask fun _ => ?_)
    let record : Record :=
      { old with fields := mergeFields old.fields assignments, updatedAt := l.tick.now }
    refine wp_call (does_encodeRecord (keyLobe key) record _) fun encoded db₁ _ ⟨h₁, henc⟩ => ?_
    refine wp_call (does_movedKey hsize old.lobeName key record.fields)
      fun newKey db₂ _ ⟨h₂, hplaced⟩ => ?_
    have hq := h₁.trans h₂
    have hrevised : Revised p l db db₂ ⟨key, blob, old, newKey, record, encoded⟩ := by
      refine ⟨⟨_, hid⟩, hspatial, hdecode, hnames, ⟨assignments, rfl⟩, _, _, .refl _, ?_,
        h₂.later.names⟩
      rw [hq.later.search]
      exact henc
    -- the key was chosen after encoding, which leaves specs and anchors alone
    have hplaced' : Placed p l db db₂ ⟨key, blob, old, newKey, record, encoded⟩ := by
      unfold Placed
      rw [gravityHashFor_congr h₂.later h₂.gravitySpecs, satelliteSatFor_congr h₂.later]
      cases newKey with
      | none => exact hplaced
      | some k =>
        obtain ⟨hkl, hkh, hle, hlt, ht⟩ := hplaced
        exact ⟨hkl, hkh, h₁.later.recordSeq.trans hle, hlt, ht⟩
    refine wp_bind (wp_make fun _ =>
      ⟨⟨⟨found, hfound, hq.trees ▸ hid⟩, db, hi, hq, hrevised, hplaced', ?_⟩, fun _ => ?_⟩)
    · intro f hf
      rw [isAnchor, hq.later.anchors] at hf
      rw [getElem?_mergeFields, hanchor f hf, none_or]
    · refine wp_bind (wp_make fun _ => ⟨trivial, fun _ => ?_⟩)
      refine wp_bind (wp_make fun _ => ⟨⟨hq.later.names_iff.mpr hnames, ?_⟩, fun _ => ?_⟩)
      · rw [← hblob, ← hold]
      · exact wp_pure fun _ => hq.later

lemma does_setLoop (hsize : 0 < l.command.size) {assignments : Fields} :
    ∀ {records : List Record} {db : Db},
      (∀ r ∈ records, FoundBy p l start r ∧ db.catalog.Names r.lobeName (Lid.lobeId r.lid) ∧
        ∀ f, db.catalog.isAnchor r.lobeName f = true → assignments[f]? = none) →
      Acts p I l start (setLoop p l.tick assignments records) db
  | [], _, _ => wp_done
  | r :: rs, db, h => by
    obtain ⟨hfound, hname, hanchor⟩ := h r mem_cons_self
    refine wp_call (does_setOne hI hsize hfound hname hanchor) fun _ db' _ hlater => ?_
    refine wp_call (does_setLoop hsize fun r' hr' => ?_) fun _ _ _ _ => wp_done
    obtain ⟨hfound, hname, hanchor⟩ := h r' (.tail _ hr')
    refine ⟨hfound, hlater.names_iff.mpr hname, fun f hf => hanchor f ?_⟩
    rwa [isAnchor, hlater.anchors] at hf

lemma does_executeSet {stmt : SetStmt} (hl : l.command = .set stmt) :
    Acts p I l start (executeSet p l.tick stmt) start := by
  unfold executeSet
  split
  · trivial
  · next target htarget =>
    refine wp_bind (wp_query fun hi found hfound => ?_)
    dsimp only
    split
    · exact wp_done
    · refine wp_bind (wp_ask fun _ => ?_)
      split
      · trivial
      · next hnone =>
        refine wp_call (does_setLoop hI (by simp [hl, Command.size]) fun r hr => ?_)
          fun _ _ _ _ => wp_done
        obtain ⟨x, hx, rfl⟩ := mem_map.mp hr
        refine ⟨?_, (hI _ hi).found hfound hx, fun f hf =>
          getElem?_assignedFields fun a ha haf => ?_⟩
        · rw [FoundBy, hl]
          exact ⟨target, found, x.2, htarget, hfound, hx⟩
        · have hassigned := findSome?_eq_none_iff.mp hnone x.1 hr
          rw [map_eq_none_iff, find?_eq_none] at hassigned
          exact hassigned a ha (haf ▸ hf)

/-! ### DELETE -/

lemma does_deleteSingleRecord (hi₀ : I start) (hfound : FoundBy p l start r) (h : Shrunk start db) :
    Does p I l start (deleteSingleRecord p r) (fun _ db' => Shrunk start db') db := by
  refine wp_bind (wp_query fun hi read hread => ?_)
  split
  · exact wp_pure fun _ => h
  · next key =>
    have hkey : db.trees.identity[r.lid]? = some key := by
      split at hread
      · cases hread
      · next bytes hbytes =>
        rw [spatialKeyOf_of_length ((hI _ hi).identity _ _ hbytes).1] at hread
        rw [hbytes, ← some.inj (Except.ok.inj hread)]
    refine wp_bind (wp_ask fun _ => wp_bind (wp_make fun _ =>
      ⟨⟨hkey, rfl, hi₀, h, hfound⟩, fun _ => ?_⟩))
    refine wp_bind (wp_make fun _ => ⟨trivial, fun _ => ?_⟩)
    have hshrunk := h.delete (p := p) ⟨r, key, deleteEntries p db.catalog r⟩
    exact wp_make fun _ =>
      ⟨trivial, fun _ =>
        ⟨hshrunk.catalog, hshrunk.spatial, hshrunk.identity, hshrunk.dictionary⟩⟩

lemma does_executeDelete {stmt : DeleteStmt} (hby : ∀ target found, stmt.target = some target →
      start.resolveFindExpr p target stmt.filterExpr = .ok found → ∀ r ∈ found.map Prod.fst,
        FoundBy p l start r) : Acts p I l start (executeDelete p stmt) start := by
  unfold executeDelete
  split
  · trivial
  · next target htarget =>
    refine wp_bind (wp_query fun hi found hfound => ?_)
    dsimp only
    split
    · exact wp_done
    · refine wp_call (wp_each (J := fun rest db' => Shrunk start db' ∧
        ∀ r ∈ rest, FoundBy p l start r) ?_ ⟨.refl start, hby target found htarget hfound⟩)
        fun _ _ _ _ => wp_done
      rintro r rest db' _ ⟨hshrunk, hrest⟩
      exact wp_post (does_deleteSingleRecord hI hi (hrest r mem_cons_self) hshrunk)
        fun _ _ _ h => ⟨h, fun r' hr' => hrest r' (.tail _ hr')⟩

lemma does_executeLink {stmt : LinkStmt} (hl : l.command = .link stmt) :
    Acts p I l start (executeLink p l.tick stmt) start := by
  refine wp_bind (wp_query fun _ source hsource => ?_)
  have hfound : FoundBy p l start source := by
    rw [FoundBy, hl]
    split at hsource <;> cases hsource
    next r k rest hall => exact ⟨_, k, hall, mem_cons_self⟩
  refine wp_bind (wp_query fun _ target _ => ?_)
  refine wp_bind (wp_query fun hi read hread => ?_)
  obtain ⟨hid, hspatial, hdecode⟩ := fetchPlain_eq_ok (hI _ hi) hread
  exact wp_bind (wp_make fun _ =>
    ⟨⟨by rw [hl]; trivial, fun _ _ => ⟨source, hfound, hid⟩, start, hi, .refl start,
      ⟨⟨_, hid⟩, hspatial, hdecode, rfl, rfl, rfl⟩⟩, fun _ _ => trivial⟩)

lemma does_executeIncache {stmt : InCacheStmt} (hl : l.command = .inCache stmt) :
    Acts p I l start (executeIncache p stmt) db := by
  refine wp_bind (wp_query fun _ _ _ => does_lobeId fun lobe hname => ?_)
  refine wp_bind (wp_ask fun hi => wp_bind (wp_make fun _ =>
    ⟨⟨⟨stmt, hl⟩, fun r hr => ?_⟩, fun _ => wp_done⟩))
  obtain ⟨x, hx, hread⟩ := mem_filterMap.mp hr
  obtain ⟨hspatial, hprefix⟩ := mem_lobeEntries.mp hx
  obtain ⟨hlid, hlobeName⟩ := deserializeRecord_eq_some (eq_some_of_filter_eq_some hread)
  obtain ⟨-, hblob, name, hnames⟩ := (hI _ hi).spatial _ _ hspatial
  have hlobe := keyLobe_of_prefix hprefix
  rw [hlid, hlobeName, hblob, hlobe]
  exact ⟨names_lobeNameForId (hlobe ▸ hnames), rfl⟩

/-! ### All of them -/

lemma does_dispatch {command : Command} (hl : l.command = command) :
    Acts p I l start (dispatch p l.tick command) start := by
  cases command with
  | lobe stmt => exact does_executeLobe stmt
  | anchor stmt => exact does_executeAnchor hl
  | autoAnchorApply stmt => exact does_executeAutoanchorApply hl
  | gravity stmt => exact does_executeGravity stmt
  | vector stmt => exact does_executeVector hl
  | satellite stmt => exact does_executeSatellite hl
  | put stmt => exact does_executePut hI hl
  | putBatch stmt => exact does_executePutBatch hI hl
  | bulkInsert lobe records => exact does_executeBulkInsert hl
  | set stmt => exact does_executeSet hI hl
  | delete stmt =>
    refine does_executeDelete hI fun target found htarget hfound r hr => ?_
    obtain ⟨x, hx, rfl⟩ := mem_map.mp hr
    rw [FoundBy, hl]
    exact ⟨target, found, x.2, htarget, hfound, hx⟩
  | purge stmt =>
    show Does p I l start (executeDelete p ⟨some (.lobe stmt.lobe), none⟩) _ start
    refine does_executeDelete hI fun target found htarget hfound r hr => ?_
    obtain ⟨x, hx, rfl⟩ := mem_map.mp hr
    cases htarget
    rw [FoundBy, hl]
    exact ⟨found, x.2, hfound, hx⟩
  | link stmt => exact does_executeLink hI hl
  | inCache stmt => exact does_executeIncache hI hl
  | outCache lobe => exact does_executeOutcache lobe
  | createGhost lobe spec => exact does_executeCreateGhost hl

/-- **What every change of every statement is made from.** -/
theorem execute_facts (l : DbLabel) (db : Db) : Acts p I l db (execute p l.tick l.command) db := by
  refine wp_bind (wp_ask fun _ => ?_)
  split
  · trivial
  · exact does_dispatch hI rfl

end

/-- The changes of a statement on any store that keeps the base invariant. -/
lemma changes_facts (h : Base db) (l : DbLabel) :
    ∀ x ∈ changes p db l, Base x.1 ∧ Facts p Base l db x.1 x.2 :=
  trace_invariant (fun _ _ hs hc => hs.apply (fun _ h => h) hc) (fun _ h => h) h
    (execute_facts (fun _ h => h) l db)

section

variable {τ : Type} {J : Db → τ → Prop} {w : τ → Db × Change → τ}

/-- What is kept by the changes of one statement, and by what follows them. -/
lemma next_watched {okChange : Db → Change → Prop} {t : τ} (hbase : ∀ db t, J db t → Base db)
    (hstep : ∀ db₁ t c, J db₁ t →
      Facts p (fun db => ∃ t, J db t) l db db₁ c → okChange db₁ c →
        J (db₁.apply p c) (w t (db₁, c)))
    (hJ : J db t) (hchanges : ∀ x ∈ changes p db l, okChange x.1 x.2)
    (hnext : db.next p l = some db') : J db' ((changes p db l).foldl w t) := by
  have hrun : J ((execute p l.tick l.command).run (Db.apply p) db).2 ((changes p db l).foldl w t) :=
    run_watched w hstep (fun _ t h => ⟨t, h⟩) hJ
      (execute_facts (fun _ ⟨t, h⟩ => hbase _ t h) l db) hchanges
  simp only [Db.next] at hnext
  split at hnext <;> cases hnext
  next heq => rwa [heq] at hrun

/-- Histories with something that follows the changes. -/
def watchedSys (p : Platform) (cached : Bool) (spillLimit : ℕ)
    (watch : τ → Db × Change → τ) (t : τ) :
    TransSys (Db × τ) DbLabel where
  init := (.empty cached spillLimit, t)
  next s l := (s.1.next p l).map fun db => (db, (changes p s.1 l).foldl watch s.2)

/-- **The rule for invariants** of histories that are followed. -/
theorem watched_invariant (ok : Db → DbLabel → Prop) {okChange : DbLabel → Db → Change → Prop}
    {t₀ : τ} {cached : Bool} {spillLimit : ℕ}
    (hinit : J (.empty cached spillLimit) t₀) (hbase : ∀ db t, J db t → Base db)
    (hstep : ∀ start db t l c, ok start l → J db t → Facts p (fun db => ∃ t, J db t) l start db c →
      okChange l db c → J (db.apply p c) (w t (db, c))) {s : Db × τ}
    (h : (watchedSys p cached spillLimit w t₀).Reach
      (fun s l => ok s.1 l ∧ ∀ x ∈ changes p s.1 l, okChange l x.1 x.2) s) : J s.1 s.2 := by
  refine h.invariant (fun s => J s.1 s.2) hinit fun s l s' hJ ⟨hok, hchanges⟩ hnext => ?_
  obtain ⟨db', hdb', rfl⟩ := map_eq_some_iff.mp hnext
  exact next_watched hbase (fun db₁ t c => hstep s.1 db₁ t l c hok) hJ hchanges hdb'

end

lemma next_invariant {J : Db → Prop} {okChange : Db → Change → Prop} (hbase : ∀ db, J db → Base db)
    (hstep : ∀ db₁ c, J db₁ → Facts p J l db db₁ c → okChange db₁ c → J (db₁.apply p c))
    (hJ : J db) (hchanges : ∀ x ∈ changes p db l, okChange x.1 x.2)
    (hnext : db.next p l = some db') : J db' := by
  refine next_watched (J := fun db (_ : Unit) => J db) (w := fun t _ => t) (t := ())
    (fun db _ => hbase db) (fun db₁ _ c h hf => hstep db₁ c h ?_) hJ hchanges hnext
  simpa using hf

/-- **The rule for invariants.** What holds in an empty store, and is kept by every change that is
as `Facts` says and meets a condition, holds after every history whose statements make such changes
only. `ok` is a condition on a statement and the store before it, `okChange` one on a change and
the store just before it. -/
theorem history_invariant {J : Db → Prop} {ok : Db → DbLabel → Prop}
    {okChange : DbLabel → Db → Change → Prop} {cached : Bool} {spillLimit : ℕ}
    (hinit : J (.empty cached spillLimit)) (hbase : ∀ db, J db → Base db)
    (hstep : ∀ start db l c, ok start l → J db → Facts p J l start db c → okChange l db c →
      J (db.apply p c))
    (h : (dbSys p cached spillLimit).Reach
      (fun db l => ok db l ∧ ∀ x ∈ changes p db l, okChange l x.1 x.2) db) : J db :=
  h.invariant J hinit fun db l _ hJ ⟨hok, hchanges⟩ hnext =>
    next_invariant hbase (fun db₁ c => hstep db db₁ l c hok) hJ hchanges hnext

end XyzDB.Engine
