import XyzDB.Engine.Keys
import XyzDB.Engine.Buckets

/-!
# Stores with records in one piece

Without search vectors every record is one blob with its names written out, and without LINK and
INCACHE nothing but that blob is ever read. `Plain` says so of a store; histories of the other
statements keep it, as long as the counters and the numbers of the lobes do not wrap around and no
value is nested deeper than the decoder goes.
-/

namespace XyzDB.Engine

open Std (ExtTreeMap)

/-- The statements of the histories. -/
def Command.unlinked : Command → Bool
  | .vector _ | .link _ | .inCache _ => false
  | .put stmt => stmt.link.isNone
  | _ => true

lemma Command.not_links_of_unlinked {command : Command} (h : command.unlinked = true) :
    ¬ command.Links := by
  intro hlinks
  cases command with
  | put stmt =>
    rw [unlinked, Option.isNone_iff_eq_none] at h
    simp [Links, h] at hlinks
  | link stmt => cases h
  | _ => exact hlinks

/-- A blob that can be read back. -/
def Blob.readable : Blob → Bool
  | .v1 payload => payload.decodes
  | _ => true

/-- Counters do not wrap around, what is written can be read back, and the numbers of lobes stay
below `0xFFF5`: from there on the entries of a lobe would lie among the reserved keys of the
dictionary, which is one tree in the source. -/
def Sized (db : Db) (c : Change) : Prop :=
  CountersFit db ∧ (c.spatialWrites.all fun w => w.2.all Blob.readable) = true ∧ match c with
    | .lobe _ => db.catalog.lobes.byName.size < 0xFFF5
    | _ => True

instance (db : Db) (c : Change) : Decidable (Sized db c) := by
  apply Change.casesOn (motive := fun c => Decidable (Sized db c)) c <;> intros <;>
    dsimp only [Sized] <;> infer_instance

/-- No vector fields and no cached records; every blob has its fields in full. -/
structure Plain (db : Db) : Prop where
  keyed : Keyed db
  lobes : db.catalog.lobes.WF
  noVectors : ∀ name, db.catalog.getVectorSpec name = none
  noCache : ∀ cache (lobe : UInt16), db.recordCache = some cache → cache[lobe]? = none
  blobs : ∀ (k : Key) b, db.trees.spatial[k]? = some b →
    ∃ payload, b = .v1 payload ∧ payload.decodes = true

lemma plain_empty (cached : Bool) (spillLimit : ℕ) : Plain (.empty cached spillLimit) where
  keyed := keyed_empty cached spillLimit
  lobes := LobeRegistry.wf_empty
  noVectors _ := rfl
  noCache cache lobe h := by
    cases cached with
    | true =>
      cases h
      exact ExtTreeMap.getElem?_empty
    | false => cases h
  blobs _ _ h := by simp [Db.empty, Trees.empty] at h

section

variable {p : Platform} {I : Db → Prop} {l : DbLabel} {start db : Db} {c : Change}

namespace Plain

variable (h : Plain db)

include h

lemma cached_eq_none (lobe : UInt16) (lid : Lid) : db.cached lobe lid = none := by
  cases hcache : db.recordCache with
  | none => simp [Db.cached, hcache]
  | some cache => simp [Db.cached, hcache, h.noCache cache lobe hcache]

lemma searchField (name : Text) : db.catalog.searchField name = none := by
  rw [Catalog.searchField, h.noVectors]
  rfl

lemma decode_eq {name : Text} {lobe : UInt16} {k : Key} {payload : Payload Text}
    (hk : db.trees.spatial[k]? = some (.v1 payload)) : db.decode name lobe k (.v1 payload) =
      some ⟨payload.lid, name, payload.fields, payload.createdAt, payload.updatedAt⟩ := by
  obtain ⟨payload', hb, hdec⟩ := h.blobs k _ hk
  cases hb
  rw [decode_v1, if_pos hdec]

lemma blob_eq {db₀ : Db} {lobe : UInt16} {r : Record} {x : Encoding}
    (hx : EncodedIn p db₀ db lobe r x) :
      x.blob = .v1 ⟨r.lid, r.fields, r.createdAt, r.updatedAt⟩ := by
  rw [hx.eq_of_no_search (h.searchField _)]
  rfl

lemma noCache_apply (hun : l.command.unlinked = true) (hf : Facts p I l start db c)
    {cache : RecordCache} {lobe : UInt16} (hcache : (db.apply p c).recordCache = some cache) :
    cache[lobe]? = none := by
  obtain ⟨old, hold, rfl⟩ := Option.map_eq_some_iff.mp hcache
  have hnone := h.noCache old
  cases c with
  | cacheRecord | uncacheRecord => simp [cacheApply, onCachedLobe, hnone _ hold]
  | cacheLobe lobe' records =>
    obtain ⟨⟨stmt, hl⟩, -⟩ := hf
    simp [hl, Command.unlinked] at hun
  | uncacheLobe lobe' =>
    rw [cacheApply, OrdMap.getElem?_erase]
    split
    · rfl
    · exact hnone lobe hold
  | _ => exact hnone lobe hold

/-- **One change.** -/
theorem apply (hI : ∀ db, I db → Plain db) (hun : l.command.unlinked = true)
    (hf : Facts p I l start db c) (hc : Sized db c) : Plain (db.apply p c) := by
  obtain ⟨hfit, hread, hroom⟩ := hc
  refine ⟨h.keyed.apply (fun db hi => (hI db hi).keyed) hf hfit, ?_, ?_,
    fun cache lobe => h.noCache_apply hun hf, ?_⟩
  · cases c with
    | lobe name => exact h.lobes.getOrCreate (lt_trans hroom (by decide)) name
    | _ => exact h.lobes
  · cases c with
    | vector lobe spec =>
      rcases hf.2 with ⟨-, -, stmt, hl⟩ | ⟨f, d, hspec, -⟩
      · simp [hl, Command.unlinked] at hun
      · rw [h.noVectors] at hspec
        cases hspec
    | _ => exact h.noVectors
  · intro k b hk
    rw [Db.spatial_apply] at hk
    rcases OrdMap.getElem?_putAll_eq_some hk with hk | hk
    · exact h.blobs k b hk
    · -- every blob that is written has its names written out
      have hv1 : ∃ payload, b = .v1 payload := by
        cases c with
        | insert xs =>
          obtain ⟨x, hx, heq⟩ := List.mem_map.mp hk
          cases heq
          obtain ⟨-, db₀, -, -, hall⟩ := hf
          exact ⟨_, h.blob_eq (hall.each x hx).encoded⟩
        | upsert u =>
          obtain ⟨-, db₀, -, -, hr, hnone, -⟩ := hf
          obtain ⟨-, rfl⟩ : k = u.key ∧ b = u.encoded.blob := by
            simpa [Change.spatialWrites] using hk
          exact ⟨_, h.blob_eq hr.encoded⟩
        | set u =>
          obtain ⟨-, db₀, -, -, hr, -⟩ := hf
          obtain ⟨-, rfl⟩ : k = u.key ∧ b = u.encoded.blob := by
            simpa [Change.spatialWrites] using hk
          exact ⟨_, h.blob_eq hr.encoded⟩
        | link u => exact absurd hf.1 (Command.not_links_of_unlinked hun)
        | delete d => simp [Change.spatialWrites] at hk
        | _ => cases hk
      obtain ⟨payload, rfl⟩ := hv1
      exact ⟨payload, rfl, List.all_eq_true.mp hread _ hk⟩

end Plain

end

end XyzDB.Engine
