import XyzDB.Engine.Keys
import XyzDB.Engine.Declarations

/-!
# The vector column

A record with a vector in its lobe's search field is stored in two trees: the blob without the
vector, and the column with it. The ledger (`Ledger`) has, for every key, the record that was last
written there and the search field that was declared then. The invariant `Columned` ties the trees
to the ledger: a key has a column if and only if the ledger's record has a vector in that field, and
the column is made from it.

All writes keep the invariant except those that leave a column behind: in place, SET and ON CONFLICT
UPDATE write a column when the record has a vector and touch none when it has not. SET does not
check the dimension, either (`ColumnsKept`).
-/

namespace XyzDB.Engine

open Std (ExtTreeMap)

open List Option LobeFieldRegistry OrdMap

variable {d : FieldDict} {r : Record} {v : List UInt32}

section

lemma idToName_getOrCreateId (h : d.WF) (name : Text) :
    (d.getOrCreateId name).2.idToName = register d.idToName name := by
  unfold FieldDict.getOrCreateId
  split
  · next id hid => exact (if_pos (h.mem_iff.mpr ⟨id, hid⟩)).symm
  · next hnone =>
    refine (if_neg fun hmem => ?_).symm
    obtain ⟨id, hid⟩ := h.mem_iff.mp hmem
    rw [hnone] at hid
    cases hid

/-- The names that are there after a record got its numbers are those it asked for. -/
lemma fits_of_assignIds {l : List (Text × Value)} (h : d.WF)
    (hfits : (assignIds l d).2.idToName.length ≤ 2 ^ 16) :
    (registerAll d.idToName (l.map Prod.fst)).length ≤ 2 ^ 16 := by
  induction l generalizing d with
  | nil => exact hfits
  | cons f l ih =>
    have hone : (register d.idToName f.1).length ≤ 2 ^ 16 := by
      rw [← idToName_getOrCreateId h]
      exact (prefix_assignIds l _).length_le.trans hfits
    have hrest := ih (h.getOrCreateId hone).1 hfits
    rwa [idToName_getOrCreateId h] at hrest

lemma fits_of_serializeRecordV5 {normSq : List UInt32 → UInt64} (h : d.WF) {search : Text}
    (hvec : r.fields[search]? = some (.vector v))
    (hfits : (serializeRecordV5 normSq r d (some search)).2.2.idToName.length ≤ 2 ^ 16) :
    (registerAll d.idToName (r.namesV5 search)).length ≤ 2 ^ 16 := by
  simp only [serializeRecordV5, searchVector, hvec] at hfits
  have hone : (register d.idToName search).length ≤ 2 ^ 16 := by
    rw [← idToName_getOrCreateId h]
    exact (prefix_assignIds _ _).length_le.trans hfits
  have hrest := fits_of_assignIds (h.getOrCreateId hone).1 hfits
  rwa [idToName_getOrCreateId h] at hrest

lemma wf_serializeRecordV5 (normSq : List UInt32 → UInt64) (h : d.WF) {search : Text}
    (hfits : (serializeRecordV5 normSq r d (some search)).2.2.idToName.length ≤ 2 ^ 16) :
    (serializeRecordV5 normSq r d (some search)).2.2.WF := by
  by_cases hvec : ∃ v, r.fields[search]? = some (.vector v)
  · obtain ⟨v, hvec⟩ := hvec
    exact (h.serializeRecordV5 hvec (fits_of_serializeRecordV5 h hvec hfits)).1
  · have hnone : searchVector r (some search) d = (none, d) := by
      unfold searchVector
      split
      · rfl
      · next name heq =>
        cases heq
        split
        · next v hv => exact absurd ⟨v, hv⟩ hvec
        · rfl
    simp only [serializeRecordV5, hnone] at hfits ⊢
    exact (h.assignIds (fits_of_assignIds h hfits)).1

variable {p : Platform} {reg reg' : LobeFieldRegistry}

/-- One lobe gets a dictionary with more names. -/
lemma wf_insert {lobe' : UInt16} (hle : (reg.dictOrDefault lobe').idToName <+: d.idToName)
    (hfits : ∀ lobe, ((⟨reg.dicts.insert lobe' d⟩ : LobeFieldRegistry).names lobe).length ≤ 2 ^ 16)
    (hwf : (∀ lobe, (reg.names lobe).length ≤ 2 ^ 16) → ∀ lobe, (reg.dictOrDefault lobe).WF)
    (hd : (reg.dictOrDefault lobe').WF → d.idToName.length ≤ 2 ^ 16 → d.WF) (lobe : UInt16) :
    ((⟨reg.dicts.insert lobe' d⟩ : LobeFieldRegistry).dictOrDefault lobe).WF := by
  have hwf := hwf fun lobe => (names_insert_le hle lobe).length_le.trans (hfits lobe)
  by_cases hlobe : lobe = lobe'
  · have hlen := hfits lobe'
    rw [names, dictOrDefault_insert] at hlen
    rw [hlobe, dictOrDefault_insert]
    exact hd (hwf lobe') hlen
  · rw [dictOrDefault_insert_of_ne reg d hlobe]
    exact hwf lobe

lemma Grows.wf (h : Grows p reg reg') (hwf : ∀ lobe, (reg.dictOrDefault lobe).WF)
    (hfits : ∀ lobe, (reg'.names lobe).length ≤ 2 ^ 16) : ∀ lobe, (reg'.dictOrDefault lobe).WF := by
  induction h with
  | refl => exact hwf
  | split lobe' r f _ ih =>
    exact wf_insert (prefix_serializeRecordV5 p.normSq r _ (some f)) hfits ih
      fun hd hlen => wf_serializeRecordV5 p.normSq hd hlen
  | number lobe' r _ ih =>
    exact wf_insert (prefix_assignIds r.fields.toList _) hfits ih
      fun hd hlen => (hd.assignIds (fits_of_assignIds hd hlen)).1

end

/-! ### The ledger -/

/-- For every key, the record that was written there last, and the search field of its lobe at that
time. -/
abbrev Ledger := ExtTreeMap Key (Record × Option Text)

def ledgerWrites (db : Db) : Change → List (Key × Option (Record × Option Text))
  | .insert xs => xs.map fun x =>
      (x.bytes, some (x.record, db.catalog.searchField x.record.lobeName))
  | .upsert u | .set u | .link u =>
    [(u.oldKey, none), (u.key, some (u.record, db.catalog.searchField u.record.lobeName))]
  | .delete d => [(d.key, none)]
  | _ => []

/-- The ledger follows the changes. -/
def Ledger.watch (w : Ledger) (x : Db × Change) : Ledger := OrdMap.putAll w (ledgerWrites x.1 x.2)

/-- The vector that a record has in a search field. -/
def ownVector (r : Record) (search : Option Text) : Option (Text × List UInt32) :=
  search.bind fun f => (asVector r.fields[f]?).map fun v => (f, v)

lemma asVector_eq_some {x : Option Value} : asVector x = some v ↔ x = some (.vector v) := by
  unfold asVector
  split <;> simp_all

variable {f : Text}

lemma ownVector_eq_some {search : Option Text} :
    ownVector r search = some (f, v) ↔ search = some f ∧ r.fields[f]? = some (.vector v) := by
  simp only [ownVector, bind_eq_some_iff, map_eq_some_iff, Prod.mk.injEq, asVector_eq_some]
  constructor
  · rintro ⟨f', rfl, v', hv, rfl, rfl⟩
    exact ⟨rfl, hv⟩
  · rintro ⟨rfl, hv⟩
    exact ⟨f, rfl, v, hv, rfl, rfl⟩

lemma splitField_eq (r : Record) (search : Option Text) :
    splitField r.fields search = (ownVector r search).map Prod.fst := by
  cases search with
  | none => rfl
  | some f =>
    simp only [splitField, ownVector, Option.filter_some, Option.bind_some]
    cases asVector r.fields[f]? <;> rfl

section

variable (p : Platform)

/-- A blob and a column are a record: all of it in the blob, or the search vector in the column,
under the number of the search field. -/
def Held (names : List Text) (r : Record) (search : Option Text) (b : Blob)
    (column : Option (List UInt8)) : Prop :=
  Encodes p.normSq names r b column ∧ match ownVector r search with
    | none => b = serializeRecord r ∧ column = none
    | some (f, v) => ∃ id : UInt16, column = some (vectorColumn p.normSq r.lid id v) ∧
        names[id.toNat]? = some f

variable {p}

lemma Held.mono {names names' : List Text} {search : Option Text} {b : Blob}
    {column : Option (List UInt8)} (h : Held p names r search b column) (hle : names <+: names') :
    Held p names' r search b column := by
  refine ⟨h.1.mono hle, ?_⟩
  have hmatch := h.2
  split
  · next hnone =>
    rw [hnone] at hmatch
    exact hmatch
  · next f v hsome =>
    rw [hsome] at hmatch
    obtain ⟨id, hcol, hid⟩ := hmatch
    exact ⟨id, hcol, getElem?_mono hle hid⟩

/-- **What is written for a record** is the record. -/
theorem EncodedIn.held {db₀ : Db} {lobe : UInt16} {x : Encoding} (h : EncodedIn p db₀ db lobe r x)
    (hwf : ∀ lobe, (db₀.catalog.fieldRegistry.dictOrDefault lobe).WF)
    (hwf' : ∀ lobe, (db.catalog.fieldRegistry.dictOrDefault lobe).WF) :
    Held p (db.catalog.fieldRegistry.names lobe) r (db.catalog.searchField r.lobeName) x.blob
      x.column := by
  obtain ⟨reg, reg', hgrow, has, hgrow'⟩ := h
  rw [EncodedAs, splitField_eq] at has
  cases hown : ownVector r (db.catalog.searchField r.lobeName) with
  | none =>
    rw [hown] at has
    obtain ⟨rfl, -⟩ := has
    exact ⟨.v1 none, by rw [hown]; exact ⟨rfl, rfl⟩⟩
  | some y =>
    obtain ⟨f, v⟩ := y
    rw [hown] at has
    obtain ⟨rfl, rfl⟩ := has
    have hvec := (ownVector_eq_some.mp hown).2
    -- the registry has room: it has grown to one that has
    have hfits' := fun lobe' => (hgrow'.names_le lobe').length_le.trans (hwf' lobe').fits
    have hfits := fun lobe' =>
      (((Grows.refl (p := p) reg).split lobe r f).names_le lobe').length_le.trans (hfits' lobe')
    have hdict := hgrow.wf hwf hfits lobe
    have hlobe := hfits' lobe
    rw [names, serializeRecordV5Durable, dictOrDefault_insert] at hlobe
    have hregister := fits_of_serializeRecordV5 hdict hvec hlobe
    obtain ⟨-, hnames, hencodes⟩ : _ ∧ _ ∧ Encodes p.normSq _ r _ _ :=
      hdict.serializeRecordV5 hvec hregister
    have hle : registerAll (reg.dictOrDefault lobe).idToName (r.namesV5 f) <+:
        db.catalog.fieldRegistry.names lobe := by
      rw [← hnames]
      have hgrown := hgrow'.names_le lobe
      rwa [names, serializeRecordV5Durable, dictOrDefault_insert] at hgrown
    refine ⟨hencodes.mono hle, ?_⟩
    rw [hown]
    refine ⟨_, column_serializeRecordV5 hvec, getElem?_mono hle ?_⟩
    have hone : register (reg.dictOrDefault lobe).idToName f <+:
        registerAll (reg.dictOrDefault lobe).idToName (r.namesV5 f) := prefix_registerAll _ _
    exact getElem?_mono hone (hdict.getOrCreateId (hone.length_le.trans hregister)).2.2

end

/-- The trees are what the ledger says. -/
structure Columned (p : Platform) (db : Db) (w : Ledger) : Prop where
  keyed : Keyed db
  registry : ∀ lobe, (db.catalog.fieldRegistry.dictOrDefault lobe).WF
  live : ∀ (k : Key) r s, w[k]? = some (r, s) → ∃ b, db.trees.spatial[k]? = some b ∧
    Held p (db.catalog.fieldRegistry.names (keyLobe k)) r s b db.trees.vectors[k]?
  gone : ∀ k : Key, w[k]? = none → db.trees.spatial[k]? = none ∧ db.trees.vectors[k]? = none
  dims : ∀ (k : Key) r s f v, w[k]? = some (r, s) → ownVector r s = some (f, v) →
    db.catalog.getVectorSpec r.lobeName = some ⟨f, some v.length⟩

lemma columned_empty (p : Platform) (cached : Bool) (spillLimit : ℕ) :
    Columned p (.empty cached spillLimit) ∅ where
  keyed := keyed_empty cached spillLimit
  registry lobe := by
    exact FieldDict.wf_new
  live _ _ _ h := by simp at h
  gone _ _ := by simp [Db.empty, Trees.empty]
  dims _ _ _ _ _ h := by simp at h

section

/-- The names of every lobe have numbers of 16 bits. -/
abbrev LobeFieldRegistry.Fits (reg : LobeFieldRegistry) : Prop :=
  ∀ x ∈ reg.dicts.toList, x.2.idToName.length ≤ 2 ^ 16

variable (db : Db)

/-- In place, a record with a column is rewritten with a vector. -/
abbrev KeepsVector (u : Revision) : Prop :=
  u.newKey = none → db.trees.vectors[u.oldKey]?.isSome = true →
    (ownVector u.record (db.catalog.searchField u.record.lobeName)).isSome = true

/-- The vector of a record has the dimension of its lobe. -/
abbrev FitsDim (r : Record) : Prop :=
  (ownVector r (db.catalog.searchField r.lobeName)).all (fun x =>
    db.catalog.getVectorSpec r.lobeName == some ⟨x.1, some x.2.length⟩) = true

/-- No revision leaves a column behind, SET keeps the dimension, there are no links, and counters
and numbers do not wrap around. -/
def ColumnsKept (c : Change) : Prop :=
  CountersFit db ∧ match c with
    | .fieldDict reg => reg.Fits
    | .upsert u => KeepsVector db u
    | .set u => KeepsVector db u ∧ FitsDim db u.record
    | .link _ => False
    | _ => True

instance (c : Change) : Decidable (ColumnsKept db c) := by
  apply Change.casesOn (motive := fun c => Decidable (ColumnsKept db c)) c <;> intros <;>
    dsimp only [ColumnsKept] <;> infer_instance

end

section

variable {p : Platform} {l : DbLabel} {start db db' : Db} {w w' : Ledger} {c : Change}

lemma Columned.spatial_eq_none_iff (h : Columned p db w) (k : Key) :
    db.trees.spatial[k]? = none ↔ w[k]? = none := by
  refine ⟨fun hk => ?_, fun hk => (h.gone k hk).1⟩
  by_contra hne
  obtain ⟨⟨r, s⟩, hw⟩ := ne_none_iff_exists'.mp hne
  obtain ⟨b, hb, -⟩ := h.live k r s hw
  rw [hk] at hb
  cases hb

/-- A key after a change: as it was, without a record, or with one that was written now. -/
def KeyAfter (p : Platform) (db : Db) (w : Ledger) (db' : Db) (w' : Ledger) (k : Key) : Prop :=
  (db'.trees.spatial[k]? = db.trees.spatial[k]? ∧ db'.trees.vectors[k]? = db.trees.vectors[k]? ∧
      w'[k]? = w[k]?) ∨
    (w'[k]? = none ∧ db'.trees.spatial[k]? = none ∧ db'.trees.vectors[k]? = none) ∨
      ∃ r s b, w'[k]? = some (r, s) ∧ db'.trees.spatial[k]? = some b ∧
        Held p (db'.catalog.fieldRegistry.names (keyLobe k)) r s b db'.trees.vectors[k]? ∧
          ∀ f v, ownVector r s = some (f, v) →
            db'.catalog.getVectorSpec r.lobeName = some ⟨f, some v.length⟩

lemma Columned.of_keys (h : Columned p db w) (hkeyed : Keyed db')
    (hreg : ∀ lobe, (db'.catalog.fieldRegistry.dictOrDefault lobe).WF)
    (hnames : ∀ lobe, db.catalog.fieldRegistry.names lobe <+: db'.catalog.fieldRegistry.names lobe)
    (hspec : ∀ name f d, db.catalog.getVectorSpec name = some ⟨f, some d⟩ →
      db'.catalog.getVectorSpec name = some ⟨f, some d⟩)
    (hkeys : ∀ k, KeyAfter p db w db' w' k) : Columned p db' w' := by
  refine ⟨hkeyed, hreg, fun k r s hw => ?_, fun k hw => ?_, fun k r s f v hw hv => ?_⟩
  · rcases hkeys k with ⟨hs, hc, hw'⟩ | ⟨hw', -, -⟩ | ⟨r', s', b, hw', hb, hheld, -⟩
    · rw [hw'] at hw
      obtain ⟨b, hb, hheld⟩ := h.live k r s hw
      rw [hs, hc]
      exact ⟨b, hb, hheld.mono (hnames _)⟩
    · rw [hw'] at hw
      cases hw
    · cases hw'.symm.trans hw
      exact ⟨b, hb, hheld⟩
  · rcases hkeys k with ⟨hs, hc, hw'⟩ | ⟨-, hs, hc⟩ | ⟨r', s', b, hw', -⟩
    · rw [hw'] at hw
      rw [hs, hc]
      exact h.gone k hw
    · exact ⟨hs, hc⟩
    · rw [hw'] at hw
      cases hw
  · rcases hkeys k with ⟨-, -, hw'⟩ | ⟨hw', -, -⟩ | ⟨r', s', b, hw', -, -, hdim⟩
    · rw [hw'] at hw
      exact hspec _ _ _ (h.dims k r s f v hw hv)
    · rw [hw'] at hw
      cases hw
    · cases hw'.symm.trans hw
      exact hdim f v hv

lemma DimChecked.ownVector (h : DimChecked db r)
    (hv : ownVector r (db.catalog.searchField r.lobeName) = some (f, v)) :
    db.catalog.getVectorSpec r.lobeName = some ⟨f, some v.length⟩ :=
  h f v (ownVector_eq_some.mp hv).1 (ownVector_eq_some.mp hv).2

/-! ### Each change -/

lemma Columned.keyAfter_insert (h : Columned p db w) {xs : List Insertion} {db₀ : Db} {w₀ : Ledger}
    (h₀ : Columned p db₀ w₀) (hsince : Since p db₀ db) (hall : InsertedAll p l start db₀ db xs)
    (hfit : CountersFit db) (k : Key) :
    KeyAfter p db w (db.apply p (.insert xs)) (w.watch (db, .insert xs)) k := by
  by_cases hk : ∃ x ∈ xs, x.bytes = k
  · obtain ⟨x, hx, rfl⟩ := hk
    have hins := hall.each x hx
    -- two records of one batch never share a key, so the write at this key is its own
    have hsame : ∀ y ∈ xs, y.bytes = x.bytes → y = x := fun y hy heq =>
      hall.eq_of_bytes hfit hy hx heq
    have hfree := hall.spatial_free hfit h₀.keyed hsince hx
    -- nothing was stored at the key, so no column was left there
    have hnocol := (h.gone x.bytes ((h.spatial_eq_none_iff x.bytes).mp hfree)).2
    have hcolumn : (db.apply p (.insert xs)).trees.vectors[x.bytes]? = x.encoded.column := by
      rw [Db.vectors_apply]
      cases hcol : x.encoded.column with
      | some col =>
        refine getElem?_putAll_of_mem (fun wr hwr heq => ?_) ?_
        · obtain ⟨y, hy, hwr⟩ := mem_flatMap.mp hwr
          obtain ⟨c, hc, rfl⟩ := mem_map.mp hwr
          rw [hsame y hy heq, hcol] at hc
          exact congrArg some (mem_singleton.mp hc)
        · exact mem_flatMap.mpr ⟨x, hx, by rw [hcol]; exact mem_singleton.mpr rfl⟩
      | none =>
        rw [getElem?_putAll_of_not_mem, hnocol]
        intro wr hwr heq
        obtain ⟨y, hy, hwr⟩ := mem_flatMap.mp hwr
        obtain ⟨c, hc, rfl⟩ := mem_map.mp hwr
        rw [hsame y hy heq, hcol] at hc
        cases hc
    refine .inr (.inr ⟨x.record, db.catalog.searchField x.record.lobeName, x.encoded.blob, ?_,
      (hall.spatial_iff hfit h₀.keyed hsince).mpr (.inr ⟨x, hx, rfl, rfl⟩), ?_,
      fun f v hv => hins.dim.ownVector hv⟩)
    · refine getElem?_putAll_of_mem (fun wr hwr heq => ?_) (mem_map.mpr ⟨x, hx, rfl⟩)
      obtain ⟨y, hy, rfl⟩ := mem_map.mp hwr
      rw [hsame y hy heq]
    · rw [hcolumn, Insertion.bytes, SpatialKey.keyLobe_toBytes]
      exact hins.encoded.held h₀.registry h.registry
  · have hne : ∀ x ∈ xs, x.bytes ≠ k := fun x hx heq => hk ⟨x, hx, heq⟩
    refine .inl ⟨?_, ?_, ?_⟩
    · rw [Db.spatial_apply, getElem?_putAll_of_not_mem]
      intro wr hwr
      obtain ⟨x, hx, rfl⟩ := mem_map.mp hwr
      exact hne x hx
    · rw [Db.vectors_apply, getElem?_putAll_of_not_mem]
      intro wr hwr
      obtain ⟨x, hx, hwr⟩ := mem_flatMap.mp hwr
      obtain ⟨c, -, rfl⟩ := mem_map.mp hwr
      exact hne x hx
    · refine getElem?_putAll_of_not_mem fun wr hwr => ?_
      obtain ⟨x, hx, rfl⟩ := mem_map.mp hwr
      exact hne x hx

lemma getElem?_vectors_revision {u : Revision} (hc : c.revision = some u) (k : Key) :
    (db.apply p c).trees.vectors[k]? =
      if u.key = k ∧ u.encoded.column.isSome then u.encoded.column else
        if u.oldKey = k ∧ u.newKey.isSome then none else db.trees.vectors[k]? := by
  have hwrites : c.vectorsWrites = (u.newKey.toList.map fun _ => (u.oldKey, none)) ++
      u.encoded.column.toList.map fun col => (u.key, some col) := by
    cases c <;> cases hc <;> rfl
  rw [Db.vectors_apply, hwrites]
  cases u.newKey <;> cases u.encoded.column <;> simp [OrdMap.putAll, OrdMap.getElem?_put]

lemma Columned.keyAfter_revision (h : Columned p db w) {u : Revision} (hc : c.revision = some u)
    (hcat : (db.apply p c).catalog = db.catalog) (hu : Rewrites db u) (hkeep : KeepsVector db u)
    (hheld : Held p (db.catalog.fieldRegistry.names (keyLobe u.key)) u.record
      (db.catalog.searchField u.record.lobeName) u.encoded.blob u.encoded.column)
    (hdim : ∀ f v, ownVector u.record (db.catalog.searchField u.record.lobeName) = some (f, v) →
      db.catalog.getVectorSpec u.record.lobeName = some ⟨f, some v.length⟩) (k : Key) :
    KeyAfter p db w (db.apply p c) (w.watch (db, c)) k := by
  have hledger : (w.watch (db, c))[k]? =
      if u.key = k then some (u.record, db.catalog.searchField u.record.lobeName) else
        if u.oldKey = k then none else w[k]? := by
    have hwrites : ledgerWrites db c = [(u.oldKey, none),
        (u.key, some (u.record, db.catalog.searchField u.record.lobeName))] := by
      cases c <;> cases hc <;> rfl
    simp only [Ledger.watch, hwrites, OrdMap.putAll, List.foldl_cons, List.foldl_nil,
      OrdMap.getElem?_put]
  have hspatial : (db.apply p c).trees.spatial[k]? = _ := getElem?_spatial_revision hc k
  have hvectors : (db.apply p c).trees.vectors[k]? = _ := getElem?_vectors_revision hc k
  by_cases hkey : u.key = k
  · rw [if_pos hkey] at hledger
    refine .inr (.inr ⟨_, _, u.encoded.blob, hledger, by rw [hspatial, if_pos hkey], ?_,
      by rwa [hcat]⟩)
    have hcolumn : (db.apply p c).trees.vectors[k]? = u.encoded.column := by
      rw [hvectors]
      cases hcol : u.encoded.column with
      | some col => rw [if_pos ⟨hkey, rfl⟩]
      | none =>
        rw [if_neg (by simp)]
        -- no column is written, and none is left
        have hown : ownVector u.record (db.catalog.searchField u.record.lobeName) = none := by
          by_contra hne
          obtain ⟨⟨f, v⟩, hsome⟩ := Option.ne_none_iff_exists'.mp hne
          have hmatch := hheld.2
          rw [hsome, hcol] at hmatch
          obtain ⟨id, hcontra, -⟩ := hmatch
          cases hcontra
        cases hnew : u.newKey with
        | none =>
          rw [if_neg (by simp)]
          by_contra hne
          have hold : k = u.oldKey := by rw [← hkey, Revision.key, hnew]; rfl
          have hsome := hkeep hnew (by rw [← hold]; exact Option.isSome_iff_ne_none.mpr hne)
          rw [hown] at hsome
          cases hsome
        | some key =>
          have hfree := (hu.fresh key hnew).1
          rw [show key.toBytes = k by rw [← hkey, Revision.key, hnew]; rfl] at hfree
          split
          · rfl
          · exact (h.gone k ((h.spatial_eq_none_iff k).mp hfree)).2
    rw [hcolumn, hcat, ← hkey]
    exact hheld
  · rw [if_neg hkey] at hledger hspatial
    rw [if_neg (fun hand => hkey hand.1)] at hvectors
    by_cases hold : u.oldKey = k
    · have hmoved : u.newKey.isSome = true := by
        cases hnew : u.newKey with
        | none => exact absurd (by rw [← hold, Revision.key, hnew]; rfl) hkey
        | some _ => rfl
      rw [if_pos hold] at hledger hspatial
      rw [if_pos ⟨hold, hmoved⟩] at hvectors
      exact .inr (.inl ⟨hledger, hspatial, hvectors⟩)
    · rw [if_neg hold] at hledger hspatial
      rw [if_neg (fun hand => hold hand.1)] at hvectors
      exact .inl ⟨hspatial, hvectors, hledger⟩

lemma keyAfter_delete {d : Removal} (k : Key) :
    KeyAfter p db w (db.apply p (.delete d)) (w.watch (db, .delete d)) k := by
  have hledger : (w.watch (db, .delete d))[k]? = if d.key = k then none else w[k]? :=
    OrdMap.getElem?_put (d.key, none)
  have hvectors : (db.apply p (.delete d)).trees.vectors[k]? =
      if d.key = k then none else db.trees.vectors[k]? := by
    rw [Db.vectors_apply]
    exact OrdMap.getElem?_put (d.key, none)
  have hspatial : (db.apply p (.delete d)).trees.spatial[k]? = _ := getElem?_spatial_delete k
  split_ifs at hledger hvectors hspatial
  · exact .inr (.inl ⟨hledger, hspatial, hvectors⟩)
  · exact .inl ⟨hspatial, hvectors, hledger⟩

lemma LobeFieldRegistry.Fits.names {reg : LobeFieldRegistry} (h : reg.Fits) (lobe : UInt16) :
    (reg.names lobe).length ≤ 2 ^ 16 := by
  rw [LobeFieldRegistry.names, LobeFieldRegistry.dictOrDefault]
  cases hd : reg.getDict lobe with
  | none => exact Nat.zero_le _
  | some d => exact h (lobe, d) (ExtTreeMap.mem_toList_iff_getElem?_eq_some.mpr hd)

lemma Columned.registry_apply (h : Columned p db w) {I : Db → Prop} (hf : Facts p I l start db c)
    (hc : ColumnsKept db c) : ∀ lobe, ((db.apply p c).catalog.fieldRegistry.dictOrDefault lobe).WF ∧
      db.catalog.fieldRegistry.names lobe <+: (db.apply p c).catalog.fieldRegistry.names lobe := by
  intro lobe
  cases c with
  | fieldDict reg =>
    exact ⟨Grows.wf hf h.registry (fun lobe => Fits.names hc.2 lobe) lobe, Grows.names_le hf lobe⟩
  | _ => exact ⟨h.registry lobe, prefix_rfl⟩

lemma getVectorSpec_apply {I : Db → Prop} (hf : Facts p I l start db c) {name : Text} {d : ℕ}
    (h : db.catalog.getVectorSpec name = some ⟨f, some d⟩) :
    (db.apply p c).catalog.getVectorSpec name = some ⟨f, some d⟩ := by
  cases c with
  | vector lobe spec =>
    show (db.catalog.vectorFields.insert lobe spec)[name]? = _
    rw [OrdMap.getElem?_insert, if_neg]
    · exact h
    · rintro rfl
      rcases hf.2 with ⟨hnone, -⟩ | ⟨g, d', hsome, -⟩
      · rw [hnone] at h
        cases h
      · rw [hsome] at h
        cases h
  | _ => exact h

/-- **One change.** -/
theorem Columned.apply (h : Columned p db w)
    (hf : Facts p (fun db => ∃ w, Columned p db w) l start db c) (hc : ColumnsKept db c) :
    Columned p (db.apply p c) (w.watch (db, c)) := by
  have hkeyed : Keyed (db.apply p c) := h.keyed.apply (fun _ ⟨_, h⟩ => h.keyed) hf hc.1
  have hreg := h.registry_apply hf hc
  refine h.of_keys hkeyed (fun lobe => (hreg lobe).1) (fun lobe => (hreg lobe).2)
    (fun _ _ _ => getVectorSpec_apply hf) fun k => ?_
  cases c with
  | insert xs =>
    obtain ⟨-, db₀, ⟨w₀, h₀⟩, hsince, hall⟩ := hf
    exact h.keyAfter_insert h₀ hsince hall hc.1 k
  | upsert u =>
    have hu := hf.rewrites (fun _ ⟨_, h⟩ => h.keyed) hc.1 rfl
    obtain ⟨-, db₀, ⟨w₀, h₀⟩, hq, hr, hnone, hdim⟩ := hf
    refine h.keyAfter_revision rfl rfl hu hc.2 ?_ (fun f v hv => hdim.ownVector hv) k
    rw [show keyLobe u.key = keyLobe u.oldKey by rw [Revision.key, hnone]; rfl]
    exact hr.encoded.held h₀.registry h.registry
  | set u =>
    have hu := hf.rewrites (fun _ ⟨_, h⟩ => h.keyed) hc.1 rfl
    obtain ⟨-, db₀, ⟨w₀, h₀⟩, hq, hr, hplaced, -⟩ := hf
    refine h.keyAfter_revision rfl rfl hu hc.2.1 ?_ (fun f v hv => ?_) k
    · rw [(hr.key h₀.keyed.base hplaced.lobeId).2.1]
      exact hr.encoded.held h₀.registry h.registry
    · have hfits := hc.2.2
      rw [FitsDim, hv] at hfits
      exact beq_iff_eq.mp hfits
  | link u => exact hc.2.elim
  | delete d => exact keyAfter_delete k
  | _ => exact .inl ⟨rfl, rfl, rfl⟩

end

/-! ### Columns and records -/

section

variable (p : Platform)

/-- **The column is consistent.** A key without a record has no column. A key with a record holds
this record, and it has a column if and only if the record has a vector in the search field that was
declared when it was written; the column then has the identifier, the field and the components of
the record, and the dimension of the lobe. -/
def ColumnsMatch (db : Db) (w : Ledger) : Prop :=
  ∀ k : Key, match w[k]? with
    | none => db.trees.spatial[k]? = none ∧ db.trees.vectors[k]? = none
    | some (r, search) =>
      (∃ b, db.trees.spatial[k]? = some b ∧
        (r.Storable → db.decode r.lobeName (keyLobe k) k b = some r)) ∧
      match ownVector r search with
      | none => db.trees.vectors[k]? = none
      | some (f, v) =>
        (∃ id, db.trees.vectors[k]? = some (vectorColumn p.normSq r.lid id v) ∧
          (db.catalog.fieldRegistry.dictOrDefault (keyLobe k)).getName id = some f) ∧
        db.catalog.getVectorSpec r.lobeName = some ⟨f, some v.length⟩

/-- The histories with their ledger. -/
def ledgerSys (cached : Bool) (spillLimit : ℕ) : TransSys (Db × Ledger) DbLabel :=
  watchedSys p cached spillLimit Ledger.watch ∅

variable {p}

lemma Columned.decode (h : Columned p db w) {k : Key} {s : Option Text} {b : Blob}
    (hheld : Held p (db.catalog.fieldRegistry.names (keyLobe k)) r s b db.trees.vectors[k]?)
    (hstore : r.Storable) : db.decode r.lobeName (keyLobe k) k b = some r := by
  have hwf := h.registry (keyLobe k)
  rw [dictOrDefault] at hwf
  have hencodes := hheld.1
  rw [names, dictOrDefault] at hencodes
  unfold Db.decode
  cases hd : db.catalog.fieldRegistry.getDict (keyLobe k) with
  | some d =>
    rw [hd] at hwf hencodes
    exact deserializeHydrated_of_encodes hencodes hwf.nodup hstore
  | none =>
    -- without names there are no numbers
    refine deserializeHydrated_of_v1 hencodes ?_ hstore
    cases hown : ownVector r s with
    | none =>
      have hmatch := hheld.2
      rw [hown] at hmatch
      rw [hmatch.1]
      rfl
    | some y =>
      have hmatch := hheld.2
      rw [hown] at hmatch
      obtain ⟨id, -, hid⟩ := hmatch
      rw [names, dictOrDefault, hd] at hid
      cases hid

/-- **Vector columns are consistent** after every history in which no revision in place takes the
vector from a record, and SET keeps to the dimension. -/
theorem vector_columns_consistent (p : Platform) (cached : Bool) (spillLimit : ℕ) {db : Db}
    {w : Ledger} (h : (ledgerSys p cached spillLimit).Reach
      (fun s l => ∀ x ∈ changes p s.1 l, ColumnsKept x.1 x.2) (db, w)) : ColumnsMatch p db w := by
  have hreach : (watchedSys p cached spillLimit Ledger.watch ∅).Reach
      (fun s l => True ∧ ∀ x ∈ changes p s.1 l, ColumnsKept x.1 x.2) (db, w) :=
    h.mono fun _ _ hc => ⟨trivial, hc⟩
  have hJ : Columned p db w :=
    watched_invariant (s := (db, w)) (fun _ _ => True) (columned_empty p cached spillLimit)
      (fun _ _ h => h.keyed.base)
      (fun _ _ _ _ _ _ hJ hf hc => hJ.apply hf hc) hreach
  intro k
  cases hw : w[k]? with
  | none => exact hJ.gone k hw
  | some y =>
    obtain ⟨r, s⟩ := y
    obtain ⟨b, hb, hheld⟩ := hJ.live k r s hw
    refine ⟨⟨b, hb, hJ.decode hheld⟩, ?_⟩
    have hmatch := hheld.2
    split
    · next hown =>
      rw [hown] at hmatch
      exact hmatch.2
    · next f v hown =>
      rw [hown] at hmatch
      exact ⟨hmatch, hJ.dims k r s f v hw hown⟩

end

/-- An embedding. -/
def ones : Talk.Literal := .list (List.replicate 64 (.float 0x3FF0000000000000))

/-- `SET field = value WHERE k = 1`. -/
def setWhereOne (field : String) (value : Talk.Literal) : Command :=
  .set ⟨some (.lobe "a".toList), [(field.toList, value)], some (equals "k" (.int 1))⟩

/-- A lobe with a search field and two records, one of them with an embedding. -/
def embedded : List DbLabel :=
  [clocked 1 (.lobe ⟨"a".toList, none⟩), clocked 2 (.vector ⟨"v".toList, "a".toList⟩),
    clocked 3 (.gravity ⟨"a".toList, .raw "k".toList⟩),
    clocked 4 (putIn "a" [unstarred "k" (.int 1), unstarred "v" ones]),
    clocked 5 (putIn "a" [unstarred "k" (.int 2)])]

theorem vector_columns_consistent_embedded : ∃ db w,
    (ledgerSys .sample false 8).Reach (fun s l => ∀ x ∈ changes .sample s.1 l, ColumnsKept x.1 x.2)
      (db, w) ∧ db.trees.spatial.size = 2 ∧ db.trees.vectors.size = 1 ∧
        ColumnsMatch .sample db w := by
  obtain ⟨⟨db, w⟩, hreach, hspatial, hvectors⟩ : ∃ s : Db × Ledger,
      (ledgerSys .sample false 8).Reach
        (fun s l => ∀ x ∈ changes .sample s.1 l, ColumnsKept x.1 x.2) s ∧
          s.1.trees.spatial.size = 2 ∧ s.1.trees.vectors.size = 1 :=
    TransSys.exists_reach_of_runWith (embedded ++ [clocked 6 (setWhereOne "n" (.int 3))])
      (by decide +kernel)
  exact ⟨db, w, hreach, hspatial, hvectors, vector_columns_consistent .sample false 8 hreach⟩

/-- SET takes the embedding from a record and leaves the column. -/
theorem set_leaves_stale_column : ∃ db w,
    (ledgerSys .sample false 8).Reach TransSys.anyStep (db, w) ∧ ¬ ColumnsMatch .sample db w := by
  obtain ⟨⟨db, w⟩, hreach, k, hk, hw⟩ : ∃ s : Db × Ledger,
      (ledgerSys .sample false 8).Reach TransSys.anyStep s ∧
        ∃ k ∈ s.1.trees.vectors.keys, (s.2[k]?.any fun y => (ownVector y.1 y.2).isNone) = true :=
    TransSys.exists_reach_of_run (embedded ++ [clocked 6 (setWhereOne "v" .null)])
      (by decide +kernel)
  refine ⟨db, w, hreach, fun h => ?_⟩
  have hcolumn : db.trees.vectors[k]?.isSome = true := by
    rw [← ExtTreeMap.contains_eq_isSome_getElem?]
    exact ExtTreeMap.mem_keys.mp hk
  have hmatch := h k
  cases hledger : w[k]? with
  | none =>
    rw [hledger] at hw
    cases hw
  | some y =>
    obtain ⟨r, s⟩ := y
    rw [hledger] at hw hmatch
    have hown : ownVector r s = none := isNone_iff_eq_none.mp hw
    dsimp only at hmatch
    rw [hown] at hmatch
    rw [hmatch.2] at hcolumn
    cases hcolumn

end XyzDB.Engine
