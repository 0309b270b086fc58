import XyzDB.Engine.Statements

/-!
# Records and their keys

Within one lifetime of the process no write takes the key or the identifier of another record:
both carry a counter. So the tree of records and the tree of identifiers lead to one another
(`Keyed`), and the trees after a change are known entry by entry: an insertion adds its records
(`InsertedAll.spatial_iff`), a revision replaces one (`Rewrites.spatial_iff`), a removal takes one
away (`getElem?_spatial_delete`).

The counters are 64 and 32 bits wide in keys and identifiers (`CountersFit`).
-/

namespace XyzDB.Engine

open Std (ExtTreeMap)

open List Option OrdMap Revision

/-- The counters have not wrapped around. -/
abbrev CountersFit (db : Db) : Prop := db.catalog.recordSeq ≤ 2 ^ 64 ∧ db.catalog.lidSeq ≤ 2 ^ 32

/-- Spatial tree and identity tree mirror each other, below both counters. -/
structure Keyed (db : Db) : Prop where
  base : Base db
  located : ∀ (k : Key) b, db.trees.spatial[k]? = some b → db.trees.identity[b.lid]? = some k
  stored : ∀ (lid : Lid) k, db.trees.identity[lid]? = some k →
    ∃ b, db.trees.spatial[k]? = some b ∧ b.lid = lid
  seqs : ∀ (k : Key) b, db.trees.spatial[k]? = some b → seqFromBytes k < db.catalog.recordSeq
  lids : ∀ (lid : Lid) k, db.trees.identity[lid]? = some k → lid.sequence < db.catalog.lidSeq

lemma keyed_empty (cached : Bool) (spillLimit : ℕ) : Keyed (.empty cached spillLimit) where
  base := base_empty cached spillLimit
  located _ _ h := by simp [Db.empty, Trees.empty] at h
  stored _ _ h := by simp [Db.empty, Trees.empty] at h
  seqs _ _ h := by simp [Db.empty, Trees.empty] at h
  lids _ _ h := by simp [Db.empty, Trees.empty] at h

variable {k : Key} {lid : Lid}

namespace Keyed

variable {db : Db} (h : Keyed db)

include h

lemma key_inj {k' : Key} {b b' : Blob} (hk : db.trees.spatial[k]? = some b)
    (hk' : db.trees.spatial[k']? = some b') (hlid : b.lid = b'.lid) : k = k' := by
  have hid := h.located k b hk
  rw [hlid, h.located k' b' hk'] at hid
  exact (some.inj hid).symm

lemma lid_inj {lid' : Lid} (hid : db.trees.identity[lid]? = some k)
    (hid' : db.trees.identity[lid']? = some k) : lid = lid' := by
  obtain ⟨b, hb, rfl⟩ := h.stored lid k hid
  obtain ⟨b', hb', rfl⟩ := h.stored lid' k hid'
  rw [some.inj (hb.symm.trans hb')]

end Keyed

variable {x : Insertion}

section

variable {p : Platform} {l : DbLabel} {start db₀ db : Db} {xs : List Insertion}

lemma Inserted.seqFromBytes (h : Inserted p l db₀ db x) (hfit : CountersFit db) :
    seqFromBytes x.bytes = x.key.seq := SpatialKey.seqFromBytes_toBytes (h.seq.2.trans_le hfit.1)

lemma MadeIn.sequence {lobe : UInt16} (h : MadeIn db₀ db lobe lid) (hfit : CountersFit db) :
    db₀.catalog.lidSeq ≤ lid.sequence ∧ lid.sequence < db.catalog.lidSeq := by
  obtain ⟨time, n, rfl, hle, hlt⟩ := h
  rw [Lid.sequence_new, Nat.mod_eq_of_lt (hlt.trans_le hfit.2)]
  exact ⟨hle, hlt⟩

lemma MadeBefore.ne {a b : Lid} (h : MadeBefore db a b) (hfit : CountersFit db) : a ≠ b := by
  rintro rfl
  obtain ⟨lobe, lobe', time, time', m, n, hmn, hn, ha, hb⟩ := h
  have hseq := congrArg Lid.sequence (ha.symm.trans hb)
  rw [Lid.sequence_new, Lid.sequence_new, Nat.mod_eq_of_lt (hn.trans_le hfit.2),
    Nat.mod_eq_of_lt ((hmn.trans hn).trans_le hfit.2)] at hseq
  exact absurd hseq (ne_of_lt hmn)

lemma eq_of_pairwise_ne {α β : Type} {f : α → β} {xs : List α}
    (h : xs.Pairwise fun x y => f x ≠ f y) {x y : α} (hx : x ∈ xs) (hy : y ∈ xs)
    (heq : f x = f y) : x = y := by
  have : Std.Symm fun x y => f x ≠ f y := ⟨fun _ _ h => h.symm⟩
  by_contra hne
  exact h.forall hx hy hne heq

namespace InsertedAll

variable (h : InsertedAll p l start db₀ db xs) (hfit : CountersFit db)

include h hfit

lemma eq_of_bytes {y : Insertion} (hx : x ∈ xs) (hy : y ∈ xs) (heq : x.bytes = y.bytes) :
    x = y := by
  refine eq_of_pairwise_ne (h.seqs.imp ne_of_lt) hx hy ?_
  rw [← (h.each x hx).seqFromBytes hfit, heq, (h.each y hy).seqFromBytes hfit]

lemma eq_of_lid {y : Insertion} (hx : x ∈ xs) (hy : y ∈ xs) (heq : x.record.lid = y.record.lid) :
    x = y :=
  eq_of_pairwise_ne (h.lids.imp fun h => h.ne hfit) hx hy heq

variable (hk : Keyed db₀) (hsince : Since p db₀ db)

include hk hsince

lemma spatial_free (hx : x ∈ xs) : db.trees.spatial[x.bytes]? = none := by
  by_contra hne
  obtain ⟨b, hb⟩ := ne_none_iff_exists'.mp hne
  rw [hsince.trees] at hb
  have hlt := hk.seqs _ _ hb
  rw [(h.each x hx).seqFromBytes hfit] at hlt
  exact absurd (h.each x hx).seq.1 (Nat.not_le_of_lt hlt)

lemma identity_free (hx : x ∈ xs) : db.trees.identity[x.record.lid]? = none := by
  by_contra hne
  obtain ⟨k, hid⟩ := ne_none_iff_exists'.mp hne
  rw [hsince.trees] at hid
  exact absurd ((h.each x hx).lid.sequence hfit).1 (Nat.not_le_of_lt (hk.lids _ _ hid))

/-- **The records after an insertion.** -/
theorem spatial_iff {b : Blob} : (db.apply p (.insert xs)).trees.spatial[k]? = some b ↔
      db.trees.spatial[k]? = some b ∨ ∃ x ∈ xs, x.bytes = k ∧ x.encoded.blob = b := by
  rw [Db.spatial_apply]
  refine OrdMap.getElem?_putAll_new (fun x hx => h.spatial_free hfit hk hsince hx) ?_
  intro x hx y hy heq
  rw [h.eq_of_bytes hfit hx hy heq]

lemma identity_iff : (db.apply p (.insert xs)).trees.identity[lid]? = some k ↔
      db.trees.identity[lid]? = some k ∨ ∃ x ∈ xs, x.record.lid = lid ∧ x.bytes = k := by
  rw [Db.identity_apply]
  refine OrdMap.getElem?_putAll_new (fun x hx => h.identity_free hfit hk hsince hx) ?_
  intro x hx y hy heq
  rw [h.eq_of_lid hfit hx hy heq]

end InsertedAll

lemma InsertedAll.dictionary_iff (h : InsertedAll p l start db₀ db xs) {e : Key} :
    (db.apply p (.insert xs)).trees.dictionary[e]? = some lid ↔ db.trees.dictionary[e]? = some lid ∨
        ∃ x ∈ xs, x.record.lid = lid ∧ ∃ entry ∈ x.entries, entry.2.2 = e := by
  rw [Db.dictionary_apply, show (Change.insert xs).dictionaryWrites =
    (xs.flatMap fun x => x.entries.map fun entry => (entry.2.2, (x.record.lid : Lid))).map
      fun w => (w.1, some w.2) by
      simp [Change.dictionaryWrites, List.map_flatMap, Function.comp_def],
    OrdMap.getElem?_putAll_new]
  · refine or_congr_right ?_
    simp only [List.mem_flatMap, List.mem_map]
    constructor
    · rintro ⟨_, ⟨x, hx, entry, hentry, rfl⟩, rfl, rfl⟩
      exact ⟨x, hx, rfl, entry, hentry, rfl⟩
    · rintro ⟨x, hx, rfl, entry, hentry, rfl⟩
      exact ⟨_, ⟨x, hx, entry, hentry, rfl⟩, rfl, rfl⟩
  · intro w hw
    obtain ⟨x, hx, hw⟩ := List.mem_flatMap.mp hw
    obtain ⟨entry, hentry, rfl⟩ := List.mem_map.mp hw
    exact h.free x hx entry hentry
  · intro w hw w' hw' heq
    obtain ⟨x, hx, hw⟩ := List.mem_flatMap.mp hw
    obtain ⟨entry, hentry, rfl⟩ := List.mem_map.mp hw
    obtain ⟨y, hy, hw'⟩ := List.mem_flatMap.mp hw'
    obtain ⟨entry', hentry', rfl⟩ := List.mem_map.mp hw'
    -- two records of one batch have no entry in common
    have : Std.Symm fun x y : Insertion => ∀ e ∈ x.entries, ∀ e' ∈ y.entries, e.2.2 ≠ e'.2.2 :=
      ⟨fun _ _ h e he e' he' heq => h e' he' e he heq.symm⟩
    by_contra hne
    exact h.disjoint.forall hx hy (fun hxy => hne (by rw [hxy])) entry hentry entry' hentry' heq

end

/-- The record that a change writes again. -/
def Change.revision : Change → Option Revision
  | .upsert u | .set u | .link u => some u
  | _ => none

/-- A record that is there is written again, in its place or under a new key. -/
structure Rewrites (db : Db) (u : Revision) : Prop where
  old : db.trees.spatial[u.oldKey]? = some u.oldBlob
  recordLid : u.record.lid = u.oldBlob.lid
  blobLid : u.encoded.blob.lid = u.oldBlob.lid
  fresh : ∀ k, u.newKey = some k → db.trees.spatial[k.toBytes]? = none ∧
    seqFromBytes k.toBytes < db.catalog.recordSeq

section

variable {p : Platform} {I : Db → Prop} {l : DbLabel} {start db : Db} {c : Change} {u : Revision}

lemma Facts.rewrites (hI : ∀ db, I db → Keyed db) (hfit : CountersFit db)
    (hf : Facts p I l start db c) (hc : c.revision = some u) : Rewrites db u := by
  have hrevised : ∀ {db₀}, Quiet p db₀ db → Revised p l db₀ db u →
      db.trees.spatial[u.oldKey]? = some u.oldBlob ∧ u.record.lid = u.oldBlob.lid ∧
        u.encoded.blob.lid = u.oldBlob.lid := by
    intro db₀ hq hr
    have hlid : u.record.lid = u.oldBlob.lid := by
      obtain ⟨new, hnew⟩ := hr.record
      rw [hnew]
      exact (decode_eq_some hr.decoded).1
    exact ⟨by rw [hq.trees, hr.blob], hlid, by rw [hr.encoded.blob_lid, hlid]⟩
  cases c with
  | upsert u' =>
    cases hc
    obtain ⟨-, db₀, -, hq, hr, hnone, -⟩ := hf
    obtain ⟨hold, hrecord, hblob⟩ := hrevised hq hr
    exact ⟨hold, hrecord, hblob, fun k hk => by rw [hnone] at hk; cases hk⟩
  | set u' =>
    cases hc
    obtain ⟨-, db₀, hi, hq, hr, hplaced, -⟩ := hf
    obtain ⟨hold, hrecord, hblob⟩ := hrevised hq hr
    refine ⟨hold, hrecord, hblob, fun k hk => ?_⟩
    rw [Placed, hk] at hplaced
    obtain ⟨-, -, hle, hlt, -⟩ := hplaced
    rw [SpatialKey.seqFromBytes_toBytes (hlt.trans_le hfit.1)]
    refine ⟨?_, hlt⟩
    -- the keys in use have smaller counters
    by_contra hne
    obtain ⟨b, hb⟩ := ne_none_iff_exists'.mp hne
    rw [hq.trees] at hb
    have hseq := (hI _ hi).seqs _ _ hb
    rw [SpatialKey.seqFromBytes_toBytes (hlt.trans_le hfit.1)] at hseq
    exact absurd hle (Nat.not_le_of_lt hseq)
  | link u' =>
    cases hc
    obtain ⟨-, -, db₀, -, hq, hl⟩ := hf
    have hold := (deserializeRecord_eq_some hl.decoded).1
    exact ⟨by rw [hq.trees, hl.blob], hl.record.trans hold, hl.encoded.trans hold,
      fun k hk => by rw [hl.moved] at hk; cases hk⟩
  | _ => cases hc

lemma getElem?_spatial_revision (hc : c.revision = some u) (k : Key) :
    (db.apply p c).trees.spatial[k]? = if u.key = k then some u.encoded.blob else
      if u.oldKey = k then none else db.trees.spatial[k]? := by
  have hwrites : c.spatialWrites =
      (u.newKey.toList.map fun _ => (u.oldKey, none)) ++ [(u.key, some u.encoded.blob)] := by
    cases c <;> cases hc <;> rfl
  rw [Db.spatial_apply, hwrites]
  cases hkey : u.newKey with
  | none =>
    have hsame : u.key = u.oldKey := by rw [key, hkey]; rfl
    simp only [putAll, toList_none, map_nil, nil_append, foldl_cons, foldl_nil, getElem?_put, hsame]
    split <;> rfl
  | some k' =>
    simp only [putAll, toList_some, map_cons, map_nil, cons_append,
      nil_append, foldl_cons, foldl_nil, getElem?_put]

lemma getElem?_identity_revision (h : Keyed db) (hu : Rewrites db u) (hc : c.revision = some u)
    (lid : Lid) :
    (db.apply p c).trees.identity[lid]? =
      if u.record.lid = lid then some u.key else db.trees.identity[lid]? := by
  have hwrites : c.identityWrites = u.newKey.toList.map fun k =>
    (u.record.lid, some k.toBytes) := by
    cases c <;> cases hc <;> rfl
  rw [Db.identity_apply, hwrites]
  cases hkey : u.newKey with
  | none =>
    rw [key, hkey]
    split
    · next heq =>
      rw [← heq, hu.recordLid]
      exact h.located _ _ hu.old
    · rfl
  | some k =>
    simp only [putAll, toList_some, map_cons, map_nil, foldl_cons,
      foldl_nil, getElem?_put, key, hkey, map_some, getD_some]

variable {d : Removal}

lemma getElem?_spatial_delete (k : Key) : (db.apply p (.delete d)).trees.spatial[k]? =
      if d.key = k then none else db.trees.spatial[k]? := by
  rw [Db.spatial_apply]
  exact getElem?_put (d.key, none)

lemma getElem?_identity_delete (lid : Lid) : (db.apply p (.delete d)).trees.identity[lid]? =
      if d.record.lid = lid then none else db.trees.identity[lid]? := by
  rw [Db.identity_apply]
  exact getElem?_put ((d.record.lid : Lid), none)

lemma dictionary_delete_iff {e : Key} : (db.apply p (.delete d)).trees.dictionary[e]? = some lid ↔
      db.trees.dictionary[e]? = some lid ∧ ∀ entry ∈ d.entries, entry.2.2 ≠ e := by
  rw [Db.dictionary_apply, Change.dictionaryWrites]
  by_cases hmem : ∃ entry ∈ d.entries, entry.2.2 = e
  · obtain ⟨entry, hentry, rfl⟩ := hmem
    have hnone : ∀ w ∈ d.entries.map fun e => (e.2.2, (none : Option Lid)),
        w.1 = entry.2.2 → w.2 = none := by
      intro w hw _
      obtain ⟨e, -, rfl⟩ := mem_map.mp hw
      rfl
    rw [getElem?_putAll_of_mem hnone (mem_map.mpr ⟨entry, hentry, rfl⟩)]
    constructor
    · intro h
      cases h
    · intro h
      exact absurd rfl (h.2 entry hentry)
  · have hne : ∀ entry ∈ d.entries, entry.2.2 ≠ e := fun entry hentry heq =>
      hmem ⟨entry, hentry, heq⟩
    rw [getElem?_putAll_of_not_mem]
    · exact ⟨fun h => ⟨h, hne⟩, fun h => h.1⟩
    · intro w hw
      obtain ⟨entry, hentry, rfl⟩ := mem_map.mp hw
      exact hne entry hentry

lemma recordSeq_le_apply : db.catalog.recordSeq ≤ (db.apply p c).catalog.recordSeq := by
  cases c <;> first | exact le_rfl | exact Nat.le_succ _

lemma lidSeq_le_apply : db.catalog.lidSeq ≤ (db.apply p c).catalog.lidSeq := by
  cases c <;> first | exact le_rfl | exact Nat.le_succ _

variable (h : Keyed db)

include h

lemma Keyed.apply_insert (hbase : Base (db.apply p (.insert xs))) (h₀ : Keyed db₀)
    (hsince : Since p db₀ db) (hall : InsertedAll p l start db₀ db xs) (hfit : CountersFit db) :
    Keyed (db.apply p (.insert xs)) := by
  have hspatial := fun k b => hall.spatial_iff hfit h₀ hsince (k := k) (b := b)
  have hidentity : ∀ (lid : Lid) k, (db.apply p (.insert xs)).trees.identity[lid]? = some k ↔ _ :=
    fun _ _ => hall.identity_iff hfit h₀ hsince
  have hlid : ∀ x ∈ xs, x.encoded.blob.lid = x.record.lid :=
    fun x hx => (hall.each x hx).encoded.blob_lid
  refine ⟨hbase, fun k b hk => ?_, fun lid k hid => ?_, fun k b hk => ?_, fun lid k hid => ?_⟩
  · rw [hidentity]
    rcases (hspatial k b).mp hk with hk | ⟨x, hx, rfl, rfl⟩
    · exact .inl (h.located k b hk)
    · exact .inr ⟨x, hx, (hlid x hx).symm, rfl⟩
  · rcases (hidentity lid k).mp hid with hid | ⟨x, hx, rfl, rfl⟩
    · obtain ⟨b, hb, hlid⟩ := h.stored lid k hid
      exact ⟨b, (hspatial k b).mpr (.inl hb), hlid⟩
    · exact ⟨_, (hspatial _ _).mpr (.inr ⟨x, hx, rfl, rfl⟩), hlid x hx⟩
  · rcases (hspatial k b).mp hk with hk | ⟨x, hx, rfl, rfl⟩
    · exact h.seqs k b hk
    · rw [(hall.each x hx).seqFromBytes hfit]
      exact (hall.each x hx).seq.2
  · rcases (hidentity lid k).mp hid with hid | ⟨x, hx, rfl, rfl⟩
    · exact h.lids lid k hid
    · exact ((hall.each x hx).lid.sequence hfit).2

lemma Keyed.apply_revision (hbase : Base (db.apply p c)) (hu : Rewrites db u)
    (hc : c.revision = some u) : Keyed (db.apply p c) := by
  -- the record moves from `oldKey` to `key`, which may be the same
  have hspatial : ∀ k : Key, (db.apply p c).trees.spatial[k]? = _ := getElem?_spatial_revision hc
  have hidentity := getElem?_identity_revision (p := p) h hu hc
  have hseq : seqFromBytes u.key < db.catalog.recordSeq := by
    cases hkey : u.newKey with
    | none =>
      rw [key, hkey]
      exact h.seqs _ _ hu.old
    | some k =>
      rw [key, hkey]
      exact (hu.fresh k hkey).2
  have hold := h.located _ _ hu.old
  refine ⟨hbase, fun k b hk => ?_, fun lid k hid => ?_, fun k b hk => ?_, fun lid k hid => ?_⟩
  · rw [hspatial] at hk
    rw [hidentity, hu.recordLid]
    split at hk
    · next heq =>
      cases hk
      rw [if_pos hu.blobLid.symm, heq]
    · split at hk
      · cases hk
      · next hne => rw [if_neg fun hlid => hne (h.key_inj hu.old hk hlid), h.located k b hk]
  · rw [hidentity] at hid
    split at hid
    · next heq =>
      cases hid
      refine ⟨u.encoded.blob, by rw [hspatial, if_pos rfl], ?_⟩
      rw [← heq, hu.recordLid, hu.blobLid]
    · next hne =>
      obtain ⟨b, hb, rfl⟩ := h.stored lid k hid
      rw [hu.recordLid] at hne
      -- the key of another record is neither of the two
      have hold' : u.oldKey ≠ k := by
        rintro rfl
        exact hne (congrArg Blob.lid (some.inj (hu.old.symm.trans hb)))
      have hkey : u.key ≠ k := by
        rintro rfl
        cases hnew : u.newKey with
        | none => exact hold' (by rw [key, hnew]; rfl)
        | some k' =>
          have hnone := (hu.fresh k' hnew).1
          rw [key, hnew, map_some, getD_some, hnone] at hb
          cases hb
      exact ⟨b, by rw [hspatial, if_neg hkey, if_neg hold', hb], rfl⟩
  · refine lt_of_lt_of_le ?_ recordSeq_le_apply
    rw [hspatial] at hk
    split at hk
    · next heq => rwa [← heq]
    · split at hk
      · cases hk
      · exact h.seqs k b hk
  · refine lt_of_lt_of_le ?_ lidSeq_le_apply
    rw [hidentity] at hid
    split at hid
    · next heq =>
      rw [← heq, hu.recordLid]
      exact h.lids _ _ hold
    · exact h.lids lid k hid

lemma Keyed.apply_delete (hbase : Base (db.apply p (.delete d)))
    (hkey : db.trees.identity[d.record.lid]? = some d.key) : Keyed (db.apply p (.delete d)) := by
  refine ⟨hbase, fun k b hk => ?_, fun lid k hid => ?_, fun k b hk => ?_, fun lid k hid => ?_⟩
  · rw [getElem?_spatial_delete] at hk
    split at hk
    · cases hk
    · next hne =>
      have hid := h.located k b hk
      rw [getElem?_identity_delete, if_neg, hid]
      rintro heq
      rw [heq, hid] at hkey
      exact hne (some.inj hkey).symm
  · rw [getElem?_identity_delete] at hid
    split at hid
    · cases hid
    · next hne =>
      obtain ⟨b, hb, hlid⟩ := h.stored lid k hid
      refine ⟨b, ?_, hlid⟩
      rw [getElem?_spatial_delete, if_neg, hb]
      rintro rfl
      exact hne (h.lid_inj hkey hid)
  · rw [getElem?_spatial_delete] at hk
    split at hk
    · cases hk
    · exact h.seqs k b hk
  · rw [getElem?_identity_delete] at hid
    split at hid
    · cases hid
    · exact h.lids lid k hid

lemma Keyed.apply_other (hbase : Base (db.apply p c))
    (hspatial : c.spatialWrites = []) (hidentity : c.identityWrites = []) :
    Keyed (db.apply p c) := by
  have hs : (db.apply p c).trees.spatial = db.trees.spatial := by
    rw [Db.spatial_apply, hspatial]
    rfl
  have hi : (db.apply p c).trees.identity = db.trees.identity := by
    rw [Db.identity_apply, hidentity]; rfl
  exact ⟨hbase, by rw [hs, hi]; exact h.located, by rw [hs, hi]; exact h.stored,
    by rw [hs]; exact fun k b hk => (h.seqs k b hk).trans_le recordSeq_le_apply,
    by rw [hi]; exact fun lid k hid => (h.lids lid k hid).trans_le lidSeq_le_apply⟩

/-- **Keys stay apart.** -/
theorem Keyed.apply (hI : ∀ db, I db → Keyed db) (hf : Facts p I l start db c)
    (hfit : CountersFit db) : Keyed (db.apply p c) := by
  have hbase : Base (db.apply p c) := h.base.apply (fun db hi => (hI db hi).base) hf
  cases c with
  | insert xs =>
    obtain ⟨-, db₀, hi, hsince, hall⟩ := hf
    exact h.apply_insert hbase (hI _ hi) hsince hall hfit
  | upsert | set | link => exact h.apply_revision hbase (hf.rewrites hI hfit rfl) rfl
  | delete d => exact h.apply_delete hbase hf.key
  | _ => exact h.apply_other hbase rfl rfl

end

lemma keyed_of_reach {cached : Bool} {spillLimit : ℕ}
    (h : (dbSys p cached spillLimit).Reach (fun db l => ∀ x ∈ changes p db l, CountersFit x.1) db) :
    Keyed db := by
  have hreach : (dbSys p cached spillLimit).Reach
      (fun db l => True ∧ ∀ x ∈ changes p db l, CountersFit x.1) db :=
    h.mono fun _ _ hc => ⟨trivial, hc⟩
  exact @history_invariant p _ Keyed (fun _ _ => True)
    (fun _ db _ => CountersFit db) _ _ (keyed_empty cached spillLimit) (fun _ h => h.base)
    (fun _ _ _ _ _ h hf hfit => h.apply (fun _ h => h) hf hfit) hreach

/-- **Records and identifiers lead to one another** after every history in which no counter wraps
around: an identifier has one key, at which its record is, in the lobe that it names. -/
theorem identifiers_exact (p : Platform) (cached : Bool) (spillLimit : ℕ) {db : Db}
    (h : (dbSys p cached spillLimit).Reach (fun db l => ∀ x ∈ changes p db l, CountersFit x.1) db)
    (lid : Lid) (k : Key) : db.trees.identity[lid]? = some k ↔
      keyLobe k = lid.lobeId ∧ ∃ b, db.trees.spatial[k]? = some b ∧ b.lid = lid := by
  have hkeyed : Keyed db := keyed_of_reach h
  constructor
  · exact fun hid => ⟨(hkeyed.base.identity lid k hid).2, hkeyed.stored lid k hid⟩
  · rintro ⟨-, b, hb, rfl⟩
    exact hkeyed.located k b hb

theorem identifiers_exact_put : ∃ db, (dbSys .sample false 8).Reach
      (fun db l => ∀ x ∈ changes .sample db l, CountersFit x.1) db ∧ db.trees.identity.size = 1 ∧
      ∀ (lid : Lid) k, db.trees.identity[lid]? = some k → keyLobe k = lid.lobeId :=
  TransSys.exists_reach_and [clocked 1 (.lobe ⟨"a".toList, none⟩),
    clocked 2 (putIn "a" [unstarred "k" (.int 1)])] (by decide +kernel)
    fun _ hs lid k hid => ((identifiers_exact .sample false 8 hs lid k).mp hid).1

end XyzDB.Engine
