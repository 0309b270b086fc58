import XyzDB.Turba.Engine
import XyzDB.Turba.Journal

/-!
# The journal, batch by batch

The machines that follow do not look into the bytes of the journal. `Wal` is a
`JournalWriter` with batches in the place of bytes: the archived files and the active one
hold lists of batches, and of the active one the first `synced` are durable. Everything the
writer decides by (sizes, the running maximum that names a segment, its list of segments)
is kept, so a segment that takes the name of an older one replaces it here too.

`Wal.Models` ties the two together. The writer's operations keep it as long as batches fit
the record format (`Models.append`, `Models.sync`, `Models.prune`), and what is recovered
from the bytes after a crash is what `Wal.recovered` says (`Models.recover`).
-/

namespace XyzDB

open Codec List

/-- The `keyspace_id` of a keyspace. -/
def Keyspace.id : Keyspace → UInt8
  | .spatial => 0
  | .identity => 1
  | .dictionary => 2
  | .ghosts => 3
  | .vectors => 4

/-- The keyspace of an id; replay skips the items of any other. -/
def Keyspace.ofId (id : UInt8) : Option Keyspace :=
  Keyspace.all.find? fun ks => ks.id == id

@[simp] lemma Keyspace.ofId_id (ks : Keyspace) : Keyspace.ofId ks.id = some ks := by
  cases ks <;> rfl

/-- A batch and the sequence number it has drawn. -/
structure Batch where
  seqno : ℕ
  items : List BatchItem
  deriving DecidableEq

/-- An item as the journal has it. -/
def BatchItem.toWal (item : BatchItem) : WalItem :=
  ⟨item.keyspace.id, item.key, item.value, item.valueType⟩

/-- A batch as the journal has it. -/
def Batch.toWal (b : Batch) : WalBatch := ⟨b.seqno, b.items.map BatchItem.toWal⟩

/-- The entries a batch brings into a keyspace, in the order of its items. -/
def WalBatch.entries (ks : Keyspace) (b : WalBatch) : List Entry :=
  (b.items.filter fun item => Keyspace.ofId item.keyspaceId = some ks).map fun item =>
    ⟨item.key, item.value, b.seqno, item.valueType⟩

/-- The number of bytes of a batch's record. -/
def WalBatch.encodedLen (b : WalBatch) : ℕ := b.payload.length + 17

lemma WalBatch.length_encode (xxh : List UInt8 → BitVec 128) (b : WalBatch) :
    (b.encode xxh).length = b.encodedLen := by
  simp [WalBatch.encode, WalBatch.encodedLen]

lemma Batch.entries_toWal (b : Batch) (ks : Keyspace) : b.toWal.entries ks =
      (b.items.filter fun item => item.keyspace = ks).map fun item => item.entry b.seqno := by
  unfold WalBatch.entries Batch.toWal
  rw [filter_map, map_map]
  have hks : ((fun item : WalItem => decide (Keyspace.ofId item.keyspaceId = some ks)) ∘
      BatchItem.toWal) = fun item => decide (item.keyspace = ks) := by
    funext item
    simp [BatchItem.toWal]
  rw [hks]
  rfl

lemma WalBatch.seqno_of_mem_entries {b : WalBatch} {ks : Keyspace} {e : Entry}
    (h : e ∈ b.entries ks) : e.seqno = b.seqno := by
  obtain ⟨item, -, rfl⟩ := mem_map.mp h
  rfl

variable {watermark : ℕ}

section

variable {β γ : Type} {name : ℕ} {data : β} {files : List (ℕ × β)}

lemma mem_putFile {f : ℕ × β} (h : f ∈ putFile name data files) : f = (name, data) ∨ f ∈ files := by
  induction files with
  | nil => exact .inl (mem_singleton.mp h)
  | cons g files ih =>
    unfold putFile at h
    split at h
    · exact mem_cons.mp h
    · split at h
      · exact (mem_cons.mp h).imp_right (mem_cons_of_mem _)
      · rcases mem_cons.mp h with rfl | h
        · exact .inr mem_cons_self
        · exact (ih h).imp_right (mem_cons_of_mem _)

lemma mem_putFile_self : (name, data) ∈ putFile name data files := by
  induction files with
  | nil => exact .head _
  | cons g files ih =>
    unfold putFile
    split
    · exact mem_cons_self
    · split
      · exact mem_cons_self
      · exact .tail _ ih

lemma mem_putFile_of_ne {f : ℕ × β} (hf : f ∈ files) (hne : f.1 ≠ name) :
    f ∈ putFile name data files := by
  induction files with
  | nil => cases hf
  | cons g files ih =>
    unfold putFile
    split
    · exact .tail _ hf
    · split
      · next heq =>
        rcases mem_cons.mp hf with rfl | hf
        · exact absurd heq.symm hne
        · exact .tail _ hf
      · rcases mem_cons.mp hf with rfl | hf
        · exact mem_cons_self
        · exact .tail _ (ih hf)

lemma putFile_map (g : β → γ) : putFile name (g data) (files.map (Prod.map id g)) =
    (putFile name data files).map (Prod.map id g) := by
  induction files with
  | nil => rfl
  | cons f files ih =>
    obtain ⟨n, d⟩ := f
    simp only [map_cons, Prod.map_apply, id_eq, putFile]
    split
    · rfl
    · split
      · rfl
      · rw [ih]
        rfl

lemma pruneSegments_map (g : β → γ) (watermark : ℕ) (segments : List ℕ) (kept : List ℕ) :
    pruneSegments watermark segments (files.map (Prod.map id g)) kept =
      ((pruneSegments watermark segments files kept).1.map (Prod.map id g),
        (pruneSegments watermark segments files kept).2) := by
  induction segments generalizing files kept with
  | nil => rfl
  | cons name segments ih =>
    have hany : ((files.map (Prod.map id g)).any fun f => f.1 = name) =
        files.any fun f => f.1 = name := by
      rw [any_map]
      rfl
    have hfilter : ((files.map (Prod.map id g)).filter fun f => f.1 ≠ name) =
        (files.filter fun f => f.1 ≠ name).map (Prod.map id g) := by
      rw [filter_map]
      rfl
    simp only [pruneSegments, removeFile, hany, hfilter]
    split
    · cases files.any fun f => f.1 = name with
      | true => exact ih kept
      | false => rfl
    · exact ih _

lemma mem_of_mem_pruneSegments {segments kept : List ℕ} {f : ℕ × β}
    (h : f ∈ (pruneSegments watermark segments files kept).1) : f ∈ files := by
  obtain ⟨p, hp⟩ := pruneSegments_eq_filter watermark segments files kept
  rw [hp] at h
  exact (mem_filter.mp h).1

lemma mem_pruneSegments {segments kept : List ℕ} {f : ℕ × β} (hf : f ∈ files)
    (h : watermark < f.1) : f ∈ (pruneSegments watermark segments files kept).1 := by
  induction segments generalizing files kept with
  | nil => exact hf
  | cons name segments ih =>
    unfold pruneSegments removeFile
    split
    · next hle =>
      split
      · next files' hrm =>
        split at hrm <;> cases hrm
        exact ih (mem_filter.mpr ⟨hf, by simpa using fun heq => by omega⟩)
      · exact hf
    · exact ih hf

end

/-- A journal of batches. -/
structure Wal where
  /-- The archived files, by name. -/
  archived : List (ℕ × List WalBatch)
  /-- The segments the writer knows of, in the order they were rolled. -/
  segments : List ℕ
  active : List WalBatch
  /-- How many of the active batches a sync has made durable. -/
  synced : ℕ
  activeBytes : ℕ
  activeMaxSeqno : ℕ
  synced_le : synced ≤ active.length
  active_le : ∀ b ∈ active, b.seqno ≤ activeMaxSeqno
  archived_le : ∀ f ∈ archived, ∀ b ∈ f.2, b.seqno ≤ f.1
  deriving DecidableEq

namespace Wal

def create : Wal := ⟨[], [], [], 0, 0, 0, Nat.le_refl _, nofun, nofun⟩

/-- `write_batch_buffered`, and `write_batch` of the buffered mode. -/
def append (w : Wal) (b : WalBatch) : Wal :=
  { w with
    active := w.active ++ [b]
    activeBytes := w.activeBytes + b.encodedLen
    activeMaxSeqno := max w.activeMaxSeqno b.seqno
    synced_le := w.synced_le.trans (by simp)
    active_le := fun c hc => by
      rcases List.mem_append.mp hc with hc | hc
      · exact (w.active_le c hc).trans (Nat.le_max_left _ _)
      · exact List.mem_singleton.mp hc ▸ Nat.le_max_right _ _ }

/-- Whether the next sync rolls. -/
def rolls (segmentMaxBytes : ℕ) (w : Wal) : Bool :=
  decide (segmentMaxBytes ≤ w.activeBytes) && decide (w.activeMaxSeqno ≠ 0)

/-- `sync`, with `maybe_roll`. -/
def sync (segmentMaxBytes : ℕ) (w : Wal) : Wal :=
  if w.rolls segmentMaxBytes then
    { w with
      archived := putFile w.activeMaxSeqno w.active w.archived
      segments := w.segments ++ [w.activeMaxSeqno]
      active := []
      synced := 0
      activeBytes := 0
      synced_le := Nat.le_refl _
      active_le := nofun
      archived_le := fun f hf => by
        rcases mem_putFile hf with rfl | hf
        · exact w.active_le
        · exact w.archived_le f hf }
  else { w with synced := w.active.length, synced_le := Nat.le_refl _ }

def prune (watermark : ℕ) (w : Wal) : Wal :=
  { w with
    archived := (pruneSegments watermark w.segments w.archived []).1
    segments := (pruneSegments watermark w.segments w.archived []).2
    archived_le := fun f hf => w.archived_le f (mem_of_mem_pruneSegments hf) }

/-- What `recover_journal` finds when `kept` batches of the active file survive. -/
def recovered (w : Wal) (kept : ℕ) : List WalBatch :=
  w.archived.flatMap Prod.snd ++ w.active.take kept

/-- All batches in the files. -/
def batches (w : Wal) : List WalBatch := w.recovered w.active.length

/-- The batches that survive every crash. -/
def durable (w : Wal) : List WalBatch := w.recovered w.synced

section

variable {w : Wal} {b : WalBatch} {segmentMaxBytes : ℕ}

lemma mem_recovered {kept : ℕ} : b ∈ w.recovered kept ↔
    (∃ f ∈ w.archived, b ∈ f.2) ∨ b ∈ w.active.take kept := by
  rw [recovered, mem_append, mem_flatMap]

lemma mem_batches : b ∈ w.batches ↔ (∃ f ∈ w.archived, b ∈ f.2) ∨ b ∈ w.active := by
  rw [batches, mem_recovered, take_length]

lemma recovered_mono {m n : ℕ} (h : m ≤ n) : b ∈ w.recovered m → b ∈ w.recovered n := by
  simp only [mem_recovered]
  exact Or.imp_right fun hb => take_subset_take_left _ h hb

lemma durable_subset : b ∈ w.durable → b ∈ w.batches := recovered_mono w.synced_le

lemma durable_append (c : WalBatch) : (w.append c).durable = w.durable := by
  change w.archived.flatMap Prod.snd ++ (w.active ++ [c]).take w.synced = _
  rw [take_append_of_le_length w.synced_le]
  rfl

lemma batches_append (c : WalBatch) : (w.append c).batches = w.batches ++ [c] := by
  unfold batches recovered append
  rw [take_length, take_length, append_assoc]

lemma sync_of_rolls (h : w.rolls segmentMaxBytes = true) :
    (w.sync segmentMaxBytes).archived = putFile w.activeMaxSeqno w.active w.archived ∧
      (w.sync segmentMaxBytes).active = [] := by
  unfold sync
  rw [if_pos h]
  exact ⟨rfl, rfl⟩

lemma sync_of_not_rolls (h : w.rolls segmentMaxBytes = false) :
    (w.sync segmentMaxBytes).durable = w.batches ∧
      (w.sync segmentMaxBytes).batches = w.batches := by
  unfold sync
  rw [if_neg (Bool.eq_false_iff.mp h)]
  exact ⟨rfl, rfl⟩

/-- A roll takes a name that no archived file has. -/
abbrev FreshRoll (segmentMaxBytes : ℕ) (w : Wal) : Prop :=
  w.rolls segmentMaxBytes = true → ∀ f ∈ w.archived, f.1 ≠ w.activeMaxSeqno

/-- **Sync.** Everything in the files is durable afterwards. -/
theorem FreshRoll.durable_sync (h : w.FreshRoll segmentMaxBytes) (hb : b ∈ w.batches) :
    b ∈ (w.sync segmentMaxBytes).durable := by
  cases hroll : w.rolls segmentMaxBytes with
  | false => rwa [(sync_of_not_rolls hroll).1]
  | true =>
    refine mem_recovered.mpr (.inl ?_)
    rw [(sync_of_rolls hroll).1]
    rcases mem_batches.mp hb with ⟨f, hf, hb⟩ | hb
    · exact ⟨f, mem_putFile_of_ne hf (h hroll f hf), hb⟩
    · exact ⟨_, mem_putFile_self, hb⟩

lemma batches_sync (hb : b ∈ (w.sync segmentMaxBytes).batches) : b ∈ w.batches := by
  cases hroll : w.rolls segmentMaxBytes with
  | false => rwa [(sync_of_not_rolls hroll).2] at hb
  | true =>
    obtain ⟨harch, hact⟩ := sync_of_rolls hroll
    rcases mem_batches.mp hb with ⟨f, hf, hb⟩ | hb
    · rw [harch] at hf
      rcases mem_putFile hf with rfl | hf
      · exact mem_batches.mpr (.inr hb)
      · exact mem_batches.mpr (.inl ⟨f, hf, hb⟩)
    · rw [hact] at hb
      cases hb

/-- **Prune.** A durable batch stays unless its segment was at or below the watermark. -/
theorem durable_prune (watermark : ℕ) (hb : b ∈ w.durable) :
    b ∈ (w.prune watermark).durable ∨ ∃ f ∈ w.archived, f.1 ≤ watermark ∧ b ∈ f.2 := by
  rcases mem_recovered.mp hb with ⟨f, hf, hb⟩ | hb
  · rcases lt_or_ge watermark f.1 with hlt | hle
    · exact .inl (mem_recovered.mpr (.inl ⟨f, mem_pruneSegments hf hlt, hb⟩))
    · exact .inr ⟨f, hf, hle, hb⟩
  · exact .inl (mem_recovered.mpr (.inr hb))

lemma batches_prune (hb : b ∈ (w.prune watermark).batches) : b ∈ w.batches := by
  rcases mem_batches.mp hb with ⟨f, hf, hb⟩ | hb
  · exact mem_batches.mpr (.inl ⟨f, mem_of_mem_pruneSegments hf, hb⟩)
  · exact mem_batches.mpr (.inr hb)

end

section

variable (xxh : List UInt8 → BitVec 128)

/-- The bytes of a file. -/
def bytes (bs : List WalBatch) : List UInt8 := bs.flatMap (WalBatch.encode xxh)

/-- The files of a writer hold the records of the given batches and nothing else. -/
structure Models (w : Wal) (j : JournalWriter) : Prop where
  fits : ∀ b ∈ w.batches, b.Fits
  active : j.active = bytes xxh w.active
  synced : j.syncedBytes = (bytes xxh (w.active.take w.synced)).length
  activeBytes : j.activeBytes = w.activeBytes
  activeMaxSeqno : j.activeMaxSeqno = w.activeMaxSeqno
  segments : j.segments = w.segments
  archived : j.archived = w.archived.map (Prod.map id (bytes xxh))

variable {xxh} {w : Wal} {j : JournalWriter} {segmentMaxBytes : ℕ}

lemma models_create : create.Models xxh .create :=
  ⟨nofun, rfl, rfl, rfl, rfl, rfl, rfl⟩

variable (h : w.Models xxh j)

include h

lemma Models.append {b : WalBatch} (hb : b.Fits) :
    (w.append b).Models xxh (j.writeBatchBuffered xxh b) := by
  refine ⟨fun c hc => ?_, ?_, ?_, ?_, ?_, h.segments, h.archived⟩
  · rw [batches_append] at hc
    rcases mem_append.mp hc with hc | hc
    · exact h.fits c hc
    · exact mem_singleton.mp hc ▸ hb
  · change j.active ++ b.encode xxh = bytes xxh (w.active ++ [b])
    rw [h.active]
    simp [bytes]
  · change j.syncedBytes = (bytes xxh ((w.active ++ [b]).take w.synced)).length
    rw [h.synced, take_append_of_le_length w.synced_le]
  · change j.activeBytes + (b.encode xxh).length = w.activeBytes + b.encodedLen
    rw [h.activeBytes, WalBatch.length_encode]
  · change max j.activeMaxSeqno b.seqno = max w.activeMaxSeqno b.seqno
    rw [h.activeMaxSeqno]

lemma Models.rolls : j.rolls segmentMaxBytes = w.rolls segmentMaxBytes := by
  unfold JournalWriter.rolls Wal.rolls
  rw [h.activeBytes, h.activeMaxSeqno]

lemma Models.sync : (w.sync segmentMaxBytes).Models xxh (j.sync segmentMaxBytes) := by
  have hrolls : JournalWriter.rolls segmentMaxBytes { j with syncedBytes := j.active.length } =
      w.rolls segmentMaxBytes := h.rolls
  have hfits : ∀ b ∈ (w.sync segmentMaxBytes).batches, b.Fits := fun b hb =>
    h.fits b (batches_sync hb)
  unfold JournalWriter.sync JournalWriter.maybeRoll Wal.sync at *
  rw [hrolls]
  split
  · next hroll =>
    rw [if_pos hroll] at hfits
    refine ⟨hfits, rfl, rfl, rfl, h.activeMaxSeqno, ?_, ?_⟩
    · change j.segments ++ [j.activeMaxSeqno] = w.segments ++ [w.activeMaxSeqno]
      rw [h.segments, h.activeMaxSeqno]
    · change putFile j.activeMaxSeqno j.active j.archived = _
      rw [h.archived, h.active, h.activeMaxSeqno, putFile_map]
  · next hroll =>
    rw [if_neg hroll] at hfits
    refine ⟨hfits, h.active, ?_, h.activeBytes, h.activeMaxSeqno, h.segments, h.archived⟩
    rw [h.active, take_length]

lemma Models.prune (watermark : ℕ) : (w.prune watermark).Models xxh (j.prune watermark) := by
  refine ⟨fun b hb => h.fits b (batches_prune hb), h.active, h.synced, h.activeBytes,
    h.activeMaxSeqno, ?_, ?_⟩
  · change (pruneSegments watermark j.segments j.archived []).2 = _
    rw [h.segments, h.archived, pruneSegments_map]
    rfl
  · change (pruneSegments watermark j.segments j.archived []).1 = _
    rw [h.segments, h.archived, pruneSegments_map]
    rfl

/-- **Recovery.** A crash cuts the active file anywhere behind the last sync. What is then
read back from the bytes are the archived batches and a front of the active ones that has
all the durable ones. -/
theorem Models.recover {n : ℕ} (hn : j.syncedBytes ≤ n) :
    ∃ kept, w.synced ≤ kept ∧ kept ≤ w.active.length ∧
      recoverJournal xxh j.archived (j.active.take n) = w.recovered kept := by
  have hactive : ∀ b ∈ w.active, b.Fits := fun b hb => h.fits b (mem_batches.mpr (.inr hb))
  have harchived : (j.archived.flatMap fun f => decodeBatches xxh f.2) =
      w.archived.flatMap Prod.snd := by
    rw [h.archived, flatMap_map]
    refine flatMap_congr fun f hf => ?_
    have hfits : ∀ b ∈ f.2, b.Fits := fun b hb => h.fits b (mem_batches.mpr (.inl ⟨f, hf, hb⟩))
    have hdecode := decodeBatches_eq xxh hfits (z := []) (.inl rfl)
    rwa [append_nil] at hdecode
  obtain ⟨kept, z, hle, hkept, htake, hz⟩ :=
    Reader.Torn.take (z := []) hactive (.inl rfl) w.synced_le (h.synced.symm.trans_le hn)
  refine ⟨kept, hle, hkept, ?_⟩
  rw [append_nil] at htake
  have hfront : decodeBatches xxh (j.active.take n) = w.active.take kept := by
    rw [h.active, bytes, htake]
    exact decodeBatches_eq xxh (fun b hb => hactive b (mem_of_mem_take hb)) hz
  unfold recoverJournal recovered
  rw [harchived, hfront]

end

end Wal

end XyzDB
