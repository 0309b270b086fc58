import XyzDB.Engine.Targets
import XyzDB.Engine.Plain

/-!
# FIND by an anchor and the scan of the lobe

A value that the dictionary does not have is answered with nothing. So FIND by an anchor equals a
scan of the lobe with the same condition as long as every record has the entries of its anchors,
the invariant `Anchored`. PUT and PUT BATCH write the entries and SET leaves anchors alone. The
others keep the invariant under conditions (`KeepsEntries`, `FreshAnchor`): ANCHOR makes no entries
for the records that are there, AUTOANCHOR makes one for the first record of a value, bulk insert
makes none, and ON CONFLICT UPDATE changes values under their old entries.

The entry is looked for under the literal as it is written, and was made from the value: for a
timestamp, a list and some others the two texts differ.
-/

namespace XyzDB.Engine

open Std (ExtTreeMap ExtTreeSet)
open Talk (Filter FilterExpr FindTarget AutoAnchorApplyStmt Literal)

open List Option Prog

variable {k : Key} {payload : Payload Text} {name f : Text} {v : Value}

section

variable (p : Platform)

variable (db : Db)

/-- The entries that AUTOANCHOR makes, one for each record with the field. -/
def anchorKeys (lobe : UInt16) (field : Text) (entries : List (Key × Blob)) : List Key :=
  entries.filterMap fun x =>
    (indexEntry p db (db.catalog.lobeNameForId lobe) lobe field x.2).map fun e =>
      dictionaryKey lobe field e.2

/-- AUTOANCHOR is for a field that is an anchor already, or one with distinct values that have no
entries. -/
def FreshAnchor : Command → Prop
  | .autoAnchorApply stmt => db.catalog.isAnchor stmt.lobe stmt.field = true ∨
      (db.catalog.lobes.get stmt.lobe).all (fun lobe =>
        let keys := anchorKeys p db lobe stmt.field (db.lobeEntries lobe)
        decide keys.Nodup && keys.all fun key => !db.trees.dictionary.contains key) = true
  | _ => True

instance (command : Command) : Decidable (FreshAnchor p db command) := by
  apply Command.casesOn (motive := fun c => Decidable (FreshAnchor p db c)) command <;> intros <;>
    dsimp only [FreshAnchor] <;> infer_instance

/-- ANCHOR is for a field that no record of the lobe has, a record of a bulk insert has no anchors,
and an update keeps the anchors of its record. -/
def KeepsEntries (l : DbLabel) (db : Db) (c : Change) : Prop :=
  Sized db c ∧ match c, l.command with
    | .anchor lobe f, .anchor _ => (db.catalog.lobes.get lobe).all (fun id =>
        (db.lobeRecords p id none).all fun r => !r.fields.contains f) = true
    | .insert xs, .bulkInsert _ _ => (xs.all fun x =>
        (db.catalog.getAnchors x.record.lobeName).all fun f => !x.record.fields.contains f) = true
    | .upsert u, _ => (db.catalog.getAnchors u.old.lobeName).all (fun f =>
        u.record.fields[f]?.map (valueToAnchorString p) ==
          u.old.fields[f]?.map (valueToAnchorString p)) = true
    | _, _ => True

instance (l : DbLabel) (db : Db) (c : Change) : Decidable (KeepsEntries p l db c) := by
  unfold KeepsEntries
  split <;> infer_instance

/-- Every record gets the entries of its anchors. -/
abbrev AnchorsKept (l : DbLabel) : Prop :=
  (l.command.unlinked = true ∧ FreshAnchor p db l.command) ∧
    ∀ x ∈ changes p db l, KeepsEntries p l x.1 x.2

end

/-- Every record has the entries of its anchors. -/
structure Anchored (p : Platform) (db : Db) : Prop extends Plain db where
  entries : ∀ (k : Key) payload, db.trees.spatial[k]? = some (.v1 payload) → ∀ name f v,
    db.catalog.Names name (keyLobe k) → db.catalog.isAnchor name f = true →
      payload.fields[f]? = some v →
        db.trees.dictionary[dictionaryKey (keyLobe k) f (valueToAnchorString p v)]? =
          some (payload.lid : Lid)

lemma anchored_empty (p : Platform) (cached : Bool) (spillLimit : ℕ) :
    Anchored p (.empty cached spillLimit) where
  toPlain := plain_empty cached spillLimit
  entries _ _ h := by simp [Db.empty, Trees.empty] at h

lemma mem_getAnchors {c : Catalog} {lobe : Text} :
    f ∈ c.getAnchors lobe ↔ c.isAnchor lobe f = true := by
  rw [Catalog.getAnchors, Catalog.isAnchor]
  cases c.anchorRegistry[lobe]? with
  | none => simp
  | some fields => simp

section

variable {p : Platform} {I : Db → Prop} {l : DbLabel} {start db : Db} {c : Change}

lemma Plain.names_of_apply (h : Plain db) (hlobes : (db.apply p c).catalog.lobes.WF) {b : Blob}
    (hk : db.trees.spatial[k]? = some b) (hname : (db.apply p c).catalog.Names name (keyLobe k)) :
    db.catalog.Names name (keyLobe k) := by
  obtain ⟨-, -, known, hknown⟩ := h.keyed.base.spatial k b hk
  rwa [hlobes.inj _ _ _ hname (names_apply hknown)]

/-- The dictionary has the entry of a record for one of its fields. -/
def Entered (p : Platform) (db : Db) (k : Key) (payload : Payload Text) (f : Text) (v : Value) :
    Prop :=
  db.trees.dictionary[dictionaryKey (keyLobe k) f (valueToAnchorString p v)]? =
    some (payload.lid : Lid)

namespace Anchored

section

variable (h : Anchored p db) (hanchor : db.catalog.isAnchor name f = true)
  (hv : payload.fields[f]? = some v)

include h hanchor hv

lemma entries_old (hlobes : (db.apply p c).catalog.lobes.WF)
    (hk : db.trees.spatial[k]? = some (.v1 payload))
    (hkeep : ∀ e : Key, db.trees.dictionary[e]? = some (payload.lid : Lid) →
      (db.apply p c).trees.dictionary[e]? = some (payload.lid : Lid))
    (hname : (db.apply p c).catalog.Names name (keyLobe k)) :
    Entered p (db.apply p c) k payload f v :=
  hkeep _ (h.entries k payload hk name f v (h.names_of_apply hlobes hk hname) hanchor hv)

lemma entries_insert {xs : List Insertion} (hlobes : (db.apply p (.insert xs)).catalog.lobes.WF)
    (hf : Facts p (Anchored p) l start db (.insert xs)) (hc : KeepsEntries p l db (.insert xs))
    (hk : (db.apply p (.insert xs)).trees.spatial[k]? = some (.v1 payload))
    (hname : db.catalog.Names name (keyLobe k)) :
    Entered p (db.apply p (.insert xs)) k payload f v := by
  obtain ⟨⟨hfit, -⟩, hbulk⟩ := hc
  obtain ⟨-, db₀, hi, hsince, hall⟩ := hf
  rcases (hall.spatial_iff hfit hi.keyed hsince).mp hk with hk | ⟨x, hx, rfl, hblob⟩
  · exact h.entries_old hanchor hv hlobes hk (fun e he => hall.dictionary_iff.mpr (.inl he)) hname
  · have hins := hall.each x hx
    rw [h.blob_eq hins.encoded] at hblob
    cases hblob
    rw [Insertion.bytes, SpatialKey.keyLobe_toBytes] at hname
    rw [Entered, Insertion.bytes, SpatialKey.keyLobe_toBytes]
    obtain rfl := h.lobes.inj _ _ _ hname hins.names
    have hmem : f ∈ db.catalog.getAnchors x.record.lobeName := mem_getAnchors.mpr hanchor
    refine hall.dictionary_iff.mpr (.inr ⟨x, hx, rfl, ?_⟩)
    have hentries := hall.entries x hx
    unfold EntriesOf at hentries
    split at hentries
    · -- a bulk insert makes no entries
      next hl =>
      rw [hl] at hbulk
      have hno := all_eq_true.mp (all_eq_true.mp hbulk x hx) f hmem
      rw [ExtTreeMap.contains_eq_isSome_getElem?, hv] at hno
      cases hno
    · rw [hentries]
      exact ⟨(f, valueToAnchorString p v, _), mem_anchorEntries.mpr ⟨hmem, v, hv, rfl, rfl⟩, rfl⟩

lemma entries_revision {u : Revision} (hc : c.revision = some u) (hu : Rewrites db u)
    (hlobes : (db.apply p c).catalog.lobes.WF)
    (hdict : (db.apply p c).trees.dictionary = db.trees.dictionary)
    (hcat : (db.apply p c).catalog = db.catalog) {db₀ : Db} (hq : Quiet p db₀ db)
    (hr : Revised p l db₀ db u) (hkey : keyLobe u.key = keyLobe u.oldKey)
    (hkept : ∀ f, db.catalog.isAnchor u.old.lobeName f = true →
      u.record.fields[f]?.map (valueToAnchorString p) =
        u.old.fields[f]?.map (valueToAnchorString p))
    (hk : (db.apply p c).trees.spatial[k]? = some (.v1 payload))
    (hname : (db.apply p c).catalog.Names name (keyLobe k)) :
    Entered p (db.apply p c) k payload f v := by
  rw [getElem?_spatial_revision hc] at hk
  split at hk
  · next heq =>
    subst heq
    have hblob := some.inj hk
    rw [h.blob_eq hr.encoded] at hblob
    cases hblob
    obtain ⟨old, hold, hdec⟩ := h.blobs _ _ hu.old
    have hfields : u.old.fields = old.fields ∧ u.record.lid = old.lid := by
      have hdecoded := hr.decoded
      rw [hold, decode_v1, if_pos hdec] at hdecoded
      exact ⟨by rw [← some.inj hdecoded], by rw [hu.recordLid, hold]; rfl⟩
    rw [hcat, hkey] at hname
    rw [Entered, hkey]
    have hnames := hq.later.names_iff.mpr hr.names
    obtain rfl := h.lobes.inj _ _ _ hname hnames
    have hprint := hkept f hanchor
    rw [show u.record.fields[f]? = some v from hv, map_some, eq_comm, map_eq_some_iff] at hprint
    obtain ⟨v', hv', hprint⟩ := hprint
    rw [hfields.1] at hv'
    have hentry := h.entries u.oldKey old (hold ▸ hu.old) _ f v' hname hanchor hv'
    rw [hprint] at hentry
    rw [hdict, hentry]
    exact congrArg some hfields.2.symm
  · split at hk
    · cases hk
    · exact h.entries_old hanchor hv hlobes hk (fun e he => by rw [hdict, he]) hname

lemma entries_delete {d : Removal} (hf : Facts p (Anchored p) l start db (.delete d))
    (hk : (db.apply p (.delete d)).trees.spatial[k]? = some (.v1 payload))
    (hname : db.catalog.Names name (keyLobe k)) :
    Entered p (db.apply p (.delete d)) k payload f v := by
  rw [getElem?_spatial_delete] at hk
  split at hk
  · cases hk
  · next hne =>
    have hentry := h.entries k payload hk name f v hname hanchor hv
    refine dictionary_delete_iff.mpr ⟨hentry, fun entry hmem heq => hne ?_⟩
    -- the removed record was there when the statement started, with its own entries
    have hstart := hf.inv
    obtain ⟨k₀, b₀, hk₀, hdecode⟩ : ∃ k₀ b₀, start.trees.spatial[k₀]? = some b₀ ∧
        start.decode (start.catalog.lobeNameForId (keyLobe k₀)) (keyLobe k₀) k₀ b₀ =
          some d.record := by
      have hholds := FoundBy.holds hstart.keyed.base hf.found
      exact hholds.resolve_right fun ⟨lobe, lid, hc⟩ => by
        rw [hstart.cached_eq_none] at hc
        cases hc
    obtain ⟨payload₀, rfl, -⟩ := hstart.blobs k₀ b₀ hk₀
    rw [hstart.decode_eq hk₀] at hdecode
    have hrecord := (some.inj hdecode).symm
    obtain ⟨-, hlid₀, known, hknown⟩ := hstart.keyed.base.spatial _ _ hk₀
    have hnames₀ : start.catalog.Names d.record.lobeName (keyLobe k₀) := by
      rw [hrecord]
      exact Catalog.names_lobeNameForId hknown
    have hentry₀ : start.trees.dictionary[entry.2.2]? = some (d.record.lid : Lid) := by
      rw [hf.entries, deleteEntries, hf.shrunk.catalog,
        show start.catalog.lobes.get d.record.lobeName = some (keyLobe k₀) from hnames₀] at hmem
      obtain ⟨hf₀, v₀, hv₀, hprint, hkey⟩ := mem_anchorEntries.mp hmem
      rw [hkey, hprint]
      have := hstart.entries k₀ payload₀ hk₀ d.record.lobeName entry.1 v₀ hnames₀
        (mem_getAnchors.mp hf₀) (by rw [hrecord] at hv₀; exact hv₀)
      rw [this, hrecord]
    rw [heq, hf.shrunk.dictionary _ _ hentry] at hentry₀
    have hsame : (payload.lid : Lid) = d.record.lid := some.inj hentry₀
    have hid := h.keyed.located k _ hk
    rw [show (Blob.v1 payload).lid = d.record.lid from hsame, hf.key] at hid
    exact some.inj hid

end

/-- **One change** of a statement other than AUTOANCHOR. -/
theorem apply (h : Anchored p db) (hun : l.command.unlinked = true)
    (hauto : ∀ stmt, l.command ≠ .autoAnchorApply stmt) (hf : Facts p (Anchored p) l start db c)
    (hc : KeepsEntries p l db c) : Anchored p (db.apply p c) := by
  have hplain : Plain (db.apply p c) := h.toPlain.apply (fun _ h => h.toPlain) hun hf hc.1
  have hlobes := hplain.lobes
  refine ⟨hplain, fun k payload hk name f v hname hanchor hv => ?_⟩
  cases c with
  | insert xs => exact h.entries_insert hanchor hv hlobes hf hc hk hname
  | upsert u =>
    -- anchors are read from the merged record: the guard keeps their values
    have hu := hf.rewrites (fun _ h => h.keyed) hc.1.1 rfl
    obtain ⟨-, db₀, hi, hq, hr, hnone, -⟩ := hf
    refine h.entries_revision hanchor hv rfl hu hlobes ?_ rfl hq hr ?_ (fun g hg => ?_) hk hname
    · rw [Db.dictionary_apply]
      rfl
    · rw [Revision.key, hnone]
      rfl
    · exact beq_iff_eq.mp (all_eq_true.mp hc.2 g (mem_getAnchors.mpr hg))
  | set u =>
    have hu := hf.rewrites (fun _ h => h.keyed) hc.1.1 rfl
    obtain ⟨-, db₀, hi, hq, hr, hplaced, hsame⟩ := hf
    refine h.entries_revision hanchor hv rfl hu hlobes ?_ rfl hq hr
      (hr.key hi.keyed.base hplaced.lobeId).2.1 (fun g hg => by rw [hsame g hg]) hk hname
    rw [Db.dictionary_apply]
    rfl
  | link u => exact absurd hf.1 (Command.not_links_of_unlinked hun)
  | delete d => exact h.entries_delete hanchor hv hf hk hname
  | index entry lid =>
    obtain ⟨stmt, hl, -⟩ := hf
    exact absurd hl (hauto stmt)
  | anchor lobe g =>
    rcases isAnchor_addAnchor.mp hanchor with hanchor | ⟨rfl, rfl⟩
    · exact h.entries k payload hk name f v hname hanchor hv
    · -- no record of the lobe has the new anchor
      exfalso
      have hcommand := hf.1
      cases hl : l.command with
      | anchor stmt =>
        have hno := hc.2
        simp only [hl] at hno
        rw [show db.catalog.lobes.get name = some (keyLobe k) from hname] at hno
        have hprefix := beBytes_keyLobe_prefix (h.keyed.base.spatial _ _ hk).1
        have hmem : _ ∈ db.lobeRecords p (keyLobe k) none :=
          mem_map_select.mpr ⟨k, _, hk, hprefix, h.decode_eq hk, rfl⟩
        have hlacks := all_eq_true.mp hno _ hmem
        rw [ExtTreeMap.contains_eq_isSome_getElem?, hv] at hlacks
        cases hlacks
      | autoAnchorApply stmt => exact hauto stmt hl
      | _ =>
        rw [hl] at hcommand
        exact hcommand
  | lobe new => exact h.entries_old hanchor hv hlobes hk (fun _ he => he) hname
  | _ => exact h.entries k payload hk name f v hname hanchor hv

end Anchored

end

/-! ### AUTOANCHOR -/

section

variable {p : Platform} {db : Db} {lobeName field : Text} {lobe : UInt16}

/-- What AUTOANCHOR does for one record. -/
def indexed (p : Platform) (lobeName : Text) (lobe : UInt16) (field : Text) (db : Db)
    (x : Key × Blob) : Db :=
  match indexEntry p db lobeName lobe field x.2 with
  | some (lid, value) =>
    if db.trees.dictionary.contains (dictionaryKey lobe field value) then db
    else db.apply p (.index (dictionaryKey lobe field value) lid)
  | none => db

lemma run_indexOne (x : Key × Blob) :
    ∃ a, (indexOne p lobeName lobe field x.2).run (Db.apply p) db =
      (.ok a, indexed p lobeName lobe field db x) := by
  unfold indexOne indexed
  rw [run_bind, run_ask]
  cases indexEntry p db lobeName lobe field x.2 with
  | none => exact ⟨_, rfl⟩
  | some e =>
    obtain ⟨lid, value⟩ := e
    dsimp only [map_some]
    cases db.trees.dictionary.contains (dictionaryKey lobe field value) with
    | true => exact ⟨_, rfl⟩
    | false => exact ⟨_, rfl⟩

lemma run_indexLoop (entries : List (Key × Blob)) :
    ∃ a, (indexLoop (indexOne p lobeName lobe field) entries).run (Db.apply p) db =
      (.ok a, entries.foldl (indexed p lobeName lobe field) db) := by
  induction entries generalizing db with
  | nil => exact ⟨_, rfl⟩
  | cons x xs ih =>
    obtain ⟨a, ha⟩ : ∃ a, (indexOne p lobeName lobe field x.2).run (Db.apply p) db = _ :=
      run_indexOne x
    obtain ⟨b, hb⟩ := @ih (indexed p lobeName lobe field db x)
    refine ⟨(a.1 + b.1, a.2 ++ b.2), ?_⟩
    rw [indexLoop, run_bind, ha]
    dsimp only
    rw [run_bind, hb]
    rfl

/-- The store with the new anchor. -/
def withAnchor (p : Platform) (db : Db) (stmt : AutoAnchorApplyStmt) : Db :=
  if db.catalog.isAnchor stmt.lobe stmt.field then db
  else db.apply p (.anchor stmt.lobe stmt.field)

lemma run_registerAnchor (stmt : AutoAnchorApplyStmt) :
    (registerAnchor stmt.lobe stmt.field).run (Db.apply p) db = (.ok (), withAnchor p db stmt) := by
  simp only [registerAnchor, Prog.run, Prog.after, withAnchor, if_true]
  split <;> simp_all

variable {stmt : AutoAnchorApplyStmt}

/-- **What AUTOANCHOR does.** -/
theorem next_autoAnchorApply {db' : Db} (hl : l.command = .autoAnchorApply stmt)
    (hnext : db.next p l = some db') :
    db' = db ∨ ∃ lobe, db.catalog.Names stmt.lobe lobe ∧ db' = (db.lobeEntries lobe).foldl
        (indexed p (db.catalog.lobeNameForId lobe) lobe stmt.field) (withAnchor p db stmt) := by
  have hrun : ((executeAutoanchorApply p stmt).run (Db.apply p) db).2 = db' := by
    simp only [Db.next, execute, hl, run_bind, run_ask, Command.touchesGravityData,
      Bool.and_false, Bool.false_eq_true, if_false, dispatch] at hnext
    split at hnext
    · cases hnext
    · next heq => rw [heq]; exact some.inj hnext
  rw [executeAutoanchorApply, run_bind] at hrun
  cases hlobe : db.catalog.lobes.get stmt.lobe with
  | none =>
    left
    simp [lobeId, Prog.query, Prog.run, hlobe] at hrun
    exact hrun.symm
  | some lobe =>
    right
    refine ⟨lobe, hlobe, ?_⟩
    simp only [lobeId, Prog.query, Prog.run, Prog.after, hlobe, if_true] at hrun
    rw [run_bind, run_registerAnchor] at hrun
    dsimp only at hrun
    rw [run_bind, run_ask] at hrun
    dsimp only at hrun
    obtain ⟨a, ha⟩ : ∃ a, (indexLoop (indexOne p ((withAnchor p db stmt).catalog.lobeNameForId lobe)
        lobe stmt.field) ((withAnchor p db stmt).lobeEntries lobe)).run (Db.apply p)
          (withAnchor p db stmt) = _ := run_indexLoop _
    rw [run_bind, ha] at hrun
    have hname : (withAnchor p db stmt).catalog.lobeNameForId lobe =
        db.catalog.lobeNameForId lobe := by
      unfold withAnchor
      split <;> rfl
    have hentries : (withAnchor p db stmt).lobeEntries lobe = db.lobeEntries lobe := by
      unfold withAnchor
      split <;> rfl
    rw [← hname, ← hentries]
    exact hrun.symm

/-- **Every record gets its entry**, and nothing else changes, when the entries are distinct and
not there. -/
lemma foldl_indexed {xs : List (Key × Blob)} {db₁ : Db}
    (hdict : db₁.catalog.fieldRegistry = db.catalog.fieldRegistry)
    (hnodup : (anchorKeys p db lobe field xs).Nodup)
    (hfree : ∀ key ∈ anchorKeys p db lobe field xs, db₁.trees.dictionary[key]? = none) :
    let db₂ := xs.foldl (indexed p (db.catalog.lobeNameForId lobe) lobe field) db₁
    db₂.catalog = db₁.catalog ∧ db₂.trees.spatial = db₁.trees.spatial ∧
      ∀ (e : Key) lid, db₂.trees.dictionary[e]? = some lid ↔ db₁.trees.dictionary[e]? = some lid ∨
        ∃ x ∈ xs, ∃ value, indexEntry p db (db.catalog.lobeNameForId lobe) lobe field x.2 =
          some (lid, value) ∧ dictionaryKey lobe field value = e := by
  induction xs generalizing db₁ with
  | nil => exact ⟨rfl, rfl, by simp⟩
  | cons x xs ih =>
    have hentry : indexEntry p db₁ (db.catalog.lobeNameForId lobe) lobe field x.2 =
        indexEntry p db (db.catalog.lobeNameForId lobe) lobe field x.2 := by
      rw [indexEntry, indexEntry, hdict]
    rw [List.foldl_cons]
    cases he : indexEntry p db (db.catalog.lobeNameForId lobe) lobe field x.2 with
    | none =>
      rw [anchorKeys, List.filterMap_cons_none (by rw [he]; rfl)] at hnodup hfree
      rw [indexed, hentry]
      simpa [he] using ih hdict hnodup hfree
    | some e =>
      obtain ⟨lid₀, value₀⟩ := e
      rw [anchorKeys, List.filterMap_cons_some (by rw [he]; rfl)] at hnodup hfree
      have hnone := hfree _ List.mem_cons_self
      have hget : ∀ (e : Key) lid, (db₁.apply p (.index (dictionaryKey lobe field value₀)
          lid₀)).trees.dictionary[e]? = some lid ↔ db₁.trees.dictionary[e]? = some lid ∨
            lid₀ = lid ∧ dictionaryKey lobe field value₀ = e := by
        intro e lid
        rw [Db.dictionary_apply]
        refine (Eq.congr_left (OrdMap.getElem?_put (dictionaryKey lobe field value₀,
          some lid₀))).trans ?_
        split_ifs with hkey
        · simp [← hkey, hnone]
        · simp [hkey]
      simp only [indexed, hentry, he, ExtTreeMap.contains_eq_isSome_getElem?, hnone,
        Option.isSome_none, Bool.false_eq_true, if_false]
      obtain ⟨hcat, hspatial, hnew⟩ :=
        @ih (db₁.apply p (.index (dictionaryKey lobe field value₀) lid₀)) hdict hnodup.of_cons
          fun key hkey => Option.eq_none_iff_forall_ne_some.mpr fun lid hlid => by
            rcases (hget key lid).mp hlid with h | ⟨-, rfl⟩
            · rw [hfree key (.tail _ hkey)] at h
              cases h
            · exact (List.nodup_cons.mp hnodup).1 hkey
      refine ⟨hcat, hspatial, fun e lid => ?_⟩
      rw [hnew]
      grind

lemma Plain.indexEntry_eq (h : Plain db) (hk : db.trees.spatial[k]? = some (.v1 payload)) :
    indexEntry p db lobeName lobe field (.v1 payload) =
      payload.fields[field]?.map fun v => (payload.lid, valueToAnchorString p v) := by
  obtain ⟨payload', hb, hdec⟩ := h.blobs k _ hk
  cases hb
  rw [indexEntry, deserializeRecord, if_pos hdec, bind_some]

lemma Anchored.foldl_indexed_of_isAnchor (h : Anchored p db)
    (hname : db.catalog.Names stmt.lobe lobe)
    (hanchor : db.catalog.isAnchor stmt.lobe stmt.field = true) {xs : List (Key × Blob)}
    (hxs : ∀ x ∈ xs, x ∈ db.lobeEntries lobe) :
    xs.foldl (indexed p lobeName lobe stmt.field) db = db := by
  induction xs with
  | nil => rfl
  | cons x xs ih =>
    have hstep : indexed p lobeName lobe stmt.field db x = db := by
      obtain ⟨hk, hprefix⟩ := mem_lobeEntries.mp (hxs x mem_cons_self)
      obtain ⟨payload, hb, -⟩ := h.blobs _ _ hk
      rw [hb] at hk
      rw [indexed, hb, h.indexEntry_eq hk]
      have hlobe := keyLobe_of_prefix hprefix
      cases hv : payload.fields[stmt.field]? with
      | none => rfl
      | some v =>
        have hentry := h.entries _ payload hk stmt.lobe stmt.field v (hlobe ▸ hname) hanchor hv
        rw [hlobe] at hentry
        simp only [map_some, ExtTreeMap.contains_eq_isSome_getElem?, hentry, isSome_some, if_true]
    rw [foldl_cons, hstep]
    exact ih fun y hy => hxs y (.tail _ hy)

/-- **AUTOANCHOR** gives every record its entry, when the values are distinct. -/
theorem Anchored.autoanchor (h : Anchored p db) {db' : Db}
    (hl : l.command = .autoAnchorApply stmt) (hfresh : FreshAnchor p db l.command)
    (hplain : Plain db') (hnext : db.next p l = some db') : Anchored p db' := by
  rcases next_autoAnchorApply hl hnext with rfl | ⟨lobe, hname, hdb'⟩
  · exact h
  · rw [withAnchor] at hdb'
    split at hdb'
    · next hanchor =>
      rw [h.foldl_indexed_of_isAnchor hname hanchor fun _ hx => hx] at hdb'
      rwa [hdb']
    · next hanchor =>
      rw [hl] at hfresh
      have hkeys := hfresh.resolve_left hanchor
      rw [show db.catalog.lobes.get stmt.lobe = some lobe from hname, Option.all_some,
        Bool.and_eq_true, decide_eq_true_iff, List.all_eq_true] at hkeys
      obtain ⟨hcat, hspatial, hentries⟩ :=
        foldl_indexed (show (db.apply p (.anchor stmt.lobe stmt.field)).catalog.fieldRegistry =
          db.catalog.fieldRegistry from rfl) hkeys.1 fun key hkey => by
            have hfree := hkeys.2 key hkey
            rwa [Bool.not_eq_true', ExtTreeMap.contains_eq_isSome_getElem?,
              Option.isSome_eq_false_iff, Option.isNone_iff_eq_none] at hfree
      rw [← hdb'] at hcat hspatial hentries
      refine ⟨hplain, fun k payload hk name f v hn ha hv => ?_⟩
      rw [hspatial] at hk
      rw [hcat] at hn ha
      rcases isAnchor_addAnchor.mp ha with ha | ⟨rfl, rfl⟩
      · exact (hentries _ _).mpr (.inl (h.entries k payload hk name f v hn ha hv))
      · obtain rfl : keyLobe k = lobe := some.inj (hn.symm.trans hname)
        have hx : (k, Blob.v1 payload) ∈ db.lobeEntries (keyLobe k) :=
          mem_lobeEntries.mpr ⟨hk, beBytes_keyLobe_prefix (h.keyed.base.spatial _ _ hk).1⟩
        refine (hentries _ _).mpr (.inr ⟨_, hx, _, ?_, rfl⟩)
        rw [h.indexEntry_eq hk, hv]
        rfl

end

/-! ### FIND -/

section

variable (p : Platform)

/-- FIND with one condition returns the records that a scan of the lobe with that condition
returns. -/
def FindsAsScan (db : Db) (name : Text) (lobe : UInt16) (f : Filter) : Prop :=
  ∃ found, db.resolveFindExpr p (.lobe name) (some (.condition f)) = .ok found ∧
    ∀ r, r ∈ found.map Prod.fst ↔ r ∈ (db.scanLobeFiltered p lobe [convertFilter p f]).map Prod.fst

/-- The literal is written as its value is printed, and there is no float zero in it. -/
def PrintsAlike (literal : Literal) : Prop :=
  zeroFree (valueOf p literal) = true ∧
    literalString p literal = valueToAnchorString p (valueOf p literal)

/-- Numbers, texts, truth values, identifiers and null. -/
def scalarLiteral : Literal → Bool
  | .int _ | .text _ | .bool _ | .lid _ | .null => true
  | _ => false

lemma printsAlike_of_scalar {literal : Literal} (h : scalarLiteral literal = true) :
    PrintsAlike p literal := by
  cases literal <;> first | exact ⟨rfl, rfl⟩ | cases h

variable {p}

lemma anchored_of_reach {cached : Bool} {spillLimit : ℕ}
    (h : (dbSys p cached spillLimit).Reach (AnchorsKept p) db) : Anchored p db := by
  refine h.invariant (Anchored p) (anchored_empty p cached spillLimit)
    fun db l db' hJ ⟨⟨hun, hfresh⟩, hchanges⟩ hnext => ?_
  by_cases hauto : ∃ stmt, l.command = .autoAnchorApply stmt
  · obtain ⟨stmt, hl⟩ := hauto
    refine hJ.autoanchor hl hfresh ?_ hnext
    exact next_invariant (fun _ h => h.keyed.base)
      (fun _ _ hJ hf hc => hJ.apply (fun _ h => h) hun hf hc) hJ.toPlain
      (fun x hx => (hchanges x hx).1) hnext
  · exact next_invariant (fun _ h => h.keyed.base)
      (fun _ _ hJ hf hc => hJ.apply hun (fun stmt hl => hauto ⟨stmt, hl⟩) hf hc) hJ hchanges hnext

lemma Anchored.indexed (h : Anchored p db) : Indexed p db where
  base := h.keyed.base
  lobes := h.lobes.inj
  anchors name lobe f k b r v hname hanchor hk hlobe hdecode hv := by
    subst hlobe
    obtain ⟨payload, rfl, -⟩ := h.blobs k b hk
    rw [h.decode_eq hk] at hdecode
    cases hdecode
    exact ⟨h.entries k payload hk name f v hname hanchor hv, h.keyed.located k _ hk⟩
  entries name lobe f s lid k b _ _ _ _ hk := by
    obtain ⟨payload, rfl, -⟩ := h.blobs k b hk
    rw [h.decode_eq hk]
    rfl
  cache lobe lid r hr := by
    rw [h.cached_eq_none] at hr
    cases hr

/-- **FIND by an anchor equals a scan of the lobe**, after every history in which every record got
the entries of its anchors, for every literal that is written as its value is printed. -/
theorem anchored_find_eq_scan (p : Platform) (cached : Bool) (spillLimit : ℕ) {db : Db}
    (h : (dbSys p cached spillLimit).Reach (AnchorsKept p) db) {name field : Text} {lobe : UInt16}
    {literal : Literal} (hname : db.catalog.Names name lobe)
    (hanchor : db.catalog.isAnchor name field = true) (hdot : '.' ∉ field)
    (hprint : PrintsAlike p literal) : FindsAsScan p db name lobe ⟨field, .eq, literal⟩ := by
  have hindexed := (anchored_of_reach h).indexed
  have hfilter : db.anchorFilter name [⟨field, .eq, literal⟩] = some ⟨field, .eq, literal⟩ := by
    simp [Db.anchorFilter, hanchor]
  obtain ⟨found, hfound, hmem⟩ :=
    hindexed.findInLobe_of_anchor hname hfilter hdot hprint.1 hprint.2
  refine ⟨found, hfound, fun r => ?_⟩
  rw [hmem, mem_scanLobeFiltered]
  rfl

end

/-- Two records, an anchor for their values, and a third record. -/
def anchoredLater : List DbLabel :=
  [clocked 1 (putIn "a" [unstarred "k" (.int 1)]), clocked 2 (putIn "a" [unstarred "k" (.int 2)]),
    clocked 3 (.autoAnchorApply ⟨"k".toList, "a".toList⟩),
    clocked 4 (putIn "a" [unstarred "k" (.int 3)])]

theorem anchored_find_eq_scan_anchoredLater : ∃ db,
    (dbSys .sample false 8).Reach (AnchorsKept .sample) db ∧
      (db.scanLobeFiltered .sample 0 [⟨"k".toList, .eq, .int 1⟩]).length = 1 ∧
        FindsAsScan .sample db "a".toList 0 ⟨"k".toList, .eq, .int 1⟩ := by
  obtain ⟨db, hreach, hname, hanchor, hlen⟩ : ∃ db,
      (dbSys .sample false 8).Reach (AnchorsKept .sample) db ∧
        db.catalog.lobes.get "a".toList = some 0 ∧
        db.catalog.isAnchor "a".toList "k".toList = true ∧
        (db.scanLobeFiltered .sample 0 [⟨"k".toList, .eq, .int 1⟩]).length = 1 :=
    TransSys.exists_reach_of_runWith anchoredLater (by decide +kernel)
  exact ⟨db, hreach, hlen, anchored_find_eq_scan .sample false 8 hreach hname hanchor (by decide)
    (printsAlike_of_scalar _ rfl)⟩

/-- An anchor is declared for a lobe that has a record. -/
def anchorLate : List DbLabel :=
  [clocked 1 (putIn "a" [unstarred "k" (.int 1)]), clocked 2 (.anchor ⟨"k".toList, "a".toList⟩)]

/-- FIND by an anchor does not find a record from before the anchor. -/
theorem late_anchor_hides_record : ∃ db,
    (dbSys .sample false 8).Reach (fun _ l => l.command.unlinked = true) db ∧
      db.catalog.Names "a".toList 0 ∧ db.catalog.isAnchor "a".toList "k".toList = true ∧
        ¬ FindsAsScan .sample db "a".toList 0 ⟨"k".toList, .eq, .int 1⟩ := by
  obtain ⟨db, hreach, hname, hanchor, hscan, hfind⟩ : ∃ db,
      (dbSys .sample false 8).Reach (fun _ l => l.command.unlinked = true) db ∧
        db.catalog.lobes.get "a".toList = some 0 ∧
        db.catalog.isAnchor "a".toList "k".toList = true ∧
        (db.scanLobeFiltered .sample 0 [⟨"k".toList, .eq, .int 1⟩]).length = 1 ∧
        (db.resolveFindExpr .sample (.lobe "a".toList) (some (equals "k" (.int 1)))).toOption.map
          List.length = some 0 :=
    TransSys.exists_reach_of_runWith anchorLate (by decide +kernel)
  refine ⟨db, hreach, hname, hanchor, fun ⟨found, hfound, hmem⟩ => ?_⟩
  rw [show some (FilterExpr.condition ⟨"k".toList, .eq, .int 1⟩) =
    some (equals "k" (.int 1)) from rfl]
    at hfound
  rw [hfound] at hfind
  obtain rfl := List.length_eq_zero_iff.mp (some.inj hfind)
  obtain ⟨x, hx⟩ := List.exists_mem_of_length_pos (Nat.lt_of_lt_of_eq Nat.zero_lt_one hscan.symm)
  exact absurd ((hmem x.1).mpr (List.mem_map_of_mem hx)) (List.not_mem_nil)

end XyzDB.Engine
